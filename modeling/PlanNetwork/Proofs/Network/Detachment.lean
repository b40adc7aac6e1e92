/-
# Taking constraints away

A constraint that is taken away is struck from every episode. An episode that it
was the duration of gets a new one, which asks only that the episode does not
end before it starts. The new durations are behind all constraints there were,
so nothing that is taken away later is one of them, and no two episodes share
one.

This is refused only for an episode that cannot have a new duration, since its
events do not exist together.
-/

import PlanNetwork.Proofs.Composition.Parts
import PlanNetwork.Proofs.Network.Evolution
import PlanNetwork.Proofs.Network.Success

namespace PlanNetwork

variable {n m k : Network} {gone : List TemporalId}

namespace Network

/-- An episode between the events can have a duration. -/
def CanLast (n : Network) (start finish : EventId) : Prop :=
  ∃ both last s, n.endpointSupport start finish = .ok both ∧
    n.support (.event finish) = .ok last ∧ both.tryAnd last = .ok s

/-- The constraint asks only that the second event is not before the first. -/
def Unconstrains (n : Network) (id : TemporalId) (start finish : EventId) : Prop :=
  ∃ c, n.temporal id = .ok c ∧ c.start = start ∧ c.finish = finish ∧
    c.bounds = .precedence .infinity

/-- An episode after some constraints have been taken away. -/
structure Strips (gone : List TemporalId) (n m : Network) (e e' : Episode) : Prop where
  /-- Nothing else about it has changed. -/
  same : e' = { e with constraints := e'.constraints, duration := e'.duration }
  /-- Its other constraints are left. -/
  constraints : ∀ c, c ∈ e'.constraints.toList ↔ c ∈ e.constraints.toList ∧ c ∉ gone
  /-- It keeps its duration if that is left. -/
  kept : e.duration ∉ gone → e'.duration = e.duration
  /-- Otherwise it has a new one. -/
  reset : e.duration ∈ gone → n.temporals.size ≤ e'.duration.index ∧
    m.Unconstrains e'.duration e.start e.finish

/-- Some constraints have been taken away from all episodes. -/
structure Detaches (gone : List TemporalId) (n m : Network) : Prop where
  /-- The events are the same. -/
  events : m.events = n.events
  /-- There are as many episodes as before. -/
  size : m.episodes.size = n.episodes.size
  /-- There may be more temporal constraints. -/
  grows : n.temporals.size ≤ m.temporals.size
  /-- Those that were there are what they were. -/
  temporal : ∀ {id c}, n.temporal id = .ok c → m.temporal id = .ok c
  /-- Every episode has been stripped. -/
  episode : ∀ {id e}, n.episode id = .ok e → ∃ e', m.episode id = .ok e' ∧ Strips gone n m e e'
  /-- New durations are not shared. -/
  apart : ∀ {a b e f e' f'}, a ≠ b → n.episode a = .ok e → n.episode b = .ok f →
    m.episode a = .ok e' → m.episode b = .ok f' → e.duration ∈ gone → f.duration ∈ gone →
    e'.duration ≠ f'.duration

section Strips

variable {e e' e'' : Episode} {more : List TemporalId}

theorem Strips.start (h : Strips gone n m e e') : e'.start = e.start := by
  rw [h.same]

theorem Strips.finish (h : Strips gone n m e e') : e'.finish = e.finish := by
  rw [h.same]

/-- A new duration is behind all that was there, so it is not taken away later. -/
theorem Strips.duration_eq (here : Strips gone n k e e') (later : Strips more k m e' e'')
    (there : ∀ id ∈ more, id.index < n.temporals.size) (taken : e.duration ∈ gone) :
    e''.duration = e'.duration := by
  obtain ⟨new, _⟩ := here.reset taken
  exact later.kept fun again => absurd (there _ again) (by omega)

/-- A duration that is left is the one that may be taken away later. -/
theorem Strips.duration_mem (here : Strips gone n k e e') (taken : e.duration ∈ gone ++ more)
    (left : e.duration ∉ gone) : e'.duration ∈ more := by
  rw [here.kept left]
  exact (List.mem_append.mp taken).resolve_left left

end Strips

theorem Unconstrains.index_lt {id : TemporalId} {start finish : EventId}
    (h : n.Unconstrains id start finish) : id.index < n.temporals.size := by
  obtain ⟨c, found, _⟩ := h
  exact lookup_index_lt found

theorem canLast_congr (same : m.events = n.events) (start finish : EventId) :
    m.CanLast start finish ↔ n.CanLast start finish := by
  simp only [CanLast, endpointSupport_congr same, support_event_congr same]

namespace Detaches

theorem refl (n : Network) : Detaches [] n n := by
  refine ⟨rfl, rfl, Nat.le_refl _, fun found => found, fun {id e} found => ?_, by simp⟩
  exact ⟨e, found, rfl, by simp, fun _ => rfl, by simp⟩

theorem unconstrains (h : Detaches gone n m) {id : TemporalId} {start finish : EventId}
    (free : n.Unconstrains id start finish) : m.Unconstrains id start finish := by
  obtain ⟨c, found, rest⟩ := free
  exact ⟨c, h.temporal found, rest⟩

theorem exists_episode (h : Detaches gone n m) {id : EpisodeId} {e' : Episode}
    (found : m.episode id = .ok e') : ∃ e, n.episode id = .ok e ∧ Strips gone n m e e' := by
  obtain ⟨e, there⟩ := Network.exists_episode (h.size ▸ index_lt_size found)
  obtain ⟨_, found', strips⟩ := h.episode there
  obtain rfl := Except.ok.inj (found.symm.trans found')
  exact ⟨e, there, strips⟩

/-- Neither journals nor serial numbers matter. -/
theorem commit (h : Detaches gone n.checkpoint k) : Detaches gone n k.commit := by
  refine ⟨h.events, h.size, h.grows, h.temporal, fun found => ?_, h.apart⟩
  obtain ⟨e', found', strips⟩ := h.episode found
  exact ⟨e', found', strips.same, strips.constraints, strips.kept, strips.reset⟩

variable {more : List TemporalId}

/-- What is taken away first is not taken away again. -/
theorem strips (first : Detaches gone n k) (second : Detaches more k m)
    (there : ∀ id ∈ more, id.index < n.temporals.size) {e e' e'' : Episode}
    (here : Strips gone n k e e') (later : Strips more k m e' e'') :
    Strips (gone ++ more) n m e e'' := by
  refine ⟨?_, fun c => ?_, fun left => ?_, fun taken => ?_⟩
  · rw [later.same, here.same]
  · rw [later.constraints, here.constraints, List.mem_append, not_or, and_assoc]
  · obtain ⟨early, late⟩ := not_or.mp (List.mem_append.not.mp left)
    rw [← here.kept early] at late
    rw [later.kept late, here.kept early]
  · by_cases early : e.duration ∈ gone
    · obtain ⟨new, free⟩ := here.reset early
      rw [here.duration_eq later there early]
      exact ⟨new, second.unconstrains free⟩
    · obtain ⟨new, free⟩ := later.reset (here.duration_mem taken early)
      rw [here.start, here.finish] at free
      exact ⟨Nat.le_trans first.grows new, free⟩

theorem trans (first : Detaches gone n k) (second : Detaches more k m)
    (there : ∀ id ∈ more, id.index < n.temporals.size) : Detaches (gone ++ more) n m := by
  refine ⟨second.events.trans first.events, second.size.trans first.size,
    Nat.le_trans first.grows second.grows, fun found => second.temporal (first.temporal found),
    fun found => ?_, ?_⟩
  · obtain ⟨e', found', here⟩ := first.episode found
    obtain ⟨e'', found'', later⟩ := second.episode found'
    exact ⟨e'', found'', first.strips second there here later⟩
  · intro a b e f e'' f'' differ ea fb ea'' fb'' eGone fGone
    obtain ⟨e', ea', eHere⟩ := first.episode ea
    obtain ⟨f', fb', fHere⟩ := first.episode fb
    obtain ⟨_, found, eLater⟩ := second.episode ea'
    obtain rfl := Except.ok.inj (ea''.symm.trans found)
    obtain ⟨_, found, fLater⟩ := second.episode fb'
    obtain rfl := Except.ok.inj (fb''.symm.trans found)
    -- a duration that is new after the first step is older than those of the second
    have early {e e' : Episode} (here : Strips gone n k e e') (taken : e.duration ∈ gone) :
        e'.duration.index < k.temporals.size :=
      (here.reset taken).2.index_lt
    have late {e e' e'' : Episode} (here : Strips gone n k e e') (later : Strips more k m e' e'')
        (taken : e.duration ∈ gone ++ more) (left : e.duration ∉ gone) :
        k.temporals.size ≤ e''.duration.index :=
      (later.reset (here.duration_mem taken left)).1
    intro same
    by_cases eEarly : e.duration ∈ gone <;> by_cases fEarly : f.duration ∈ gone
    · rw [eHere.duration_eq eLater there eEarly, fHere.duration_eq fLater there fEarly] at same
      exact first.apart differ ea fb ea' fb' eEarly fEarly same
    · have older := early eHere eEarly
      have newer := late fHere fLater fGone fEarly
      rw [← same, eHere.duration_eq eLater there eEarly] at newer
      omega
    · have older := early fHere fEarly
      have newer := late eHere eLater eGone eEarly
      rw [same, fHere.duration_eq fLater there fEarly] at newer
      omega
    · exact second.apart differ ea' fb' ea'' fb'' (eHere.duration_mem eGone eEarly)
        (fHere.duration_mem fGone fEarly) same

end Detaches

/-- The constraint applies where both events exist: the supports of both make up its own, and
that of the second counts twice. -/
def SpansEvents (n m : Network) (id : TemporalId) (start finish : EventId) : Prop :=
  ∃ both last s, n.endpointSupport start finish = .ok both ∧
    n.support (.event finish) = .ok last ∧ both.tryAnd last = .ok s ∧
    m.support (.temporal id) = .ok s

/-- New durations for some episodes are behind the constraints that there are. -/
structure Renews (ids : List EpisodeId) (renewals : List (EpisodeId × TemporalId))
    (n m : Network) : Prop where
  /-- Nothing else has changed, but for the serial numbers given out. -/
  frame : m = { n with temporals := m.temporals, nextSerial := m.nextSerial }
  /-- There is one more temporal constraint for every episode. -/
  count : m.temporals.size = n.temporals.size + ids.length
  /-- Those that were there are what they were. -/
  temporal : ∀ {id c}, n.temporal id = .ok c → m.temporal id = .ok c
  /-- Every episode has a new duration. -/
  keys : renewals.map Prod.fst = ids
  /-- The durations are new, and ask for nothing else. -/
  fresh : ∀ r ∈ renewals, n.temporals.size ≤ r.2.index ∧
    ∃ e, n.episode r.1 = .ok e ∧ m.Unconstrains r.2 e.start e.finish ∧
      n.SpansEvents m r.2 e.start e.finish
  /-- No two of them are the same. -/
  apart : (renewals.map Prod.snd).Nodup

namespace Renews

variable {ids : List EpisodeId} {renewals : List (EpisodeId × TemporalId)}

theorem events (h : Renews ids renewals n m) : m.events = n.events := by
  rw [h.frame]

theorem episodes (h : Renews ids renewals n m) : m.episodes = n.episodes := by
  rw [h.frame]

theorem grows (h : Renews ids renewals n m) : n.temporals.size ≤ m.temporals.size :=
  h.count ▸ Nat.le_add_right ..

end Renews

end Network

open Network

namespace Edit

theorem mem_episodesLasting_iff {r : TemporalId} {id : EpisodeId} :
    id ∈ episodesLasting n r ↔ ∃ e, n.episode id = .ok e ∧ e.duration = r := by
  unfold episodesLasting
  simp only [List.mem_map, List.mem_filter, List.mem_range]
  constructor
  · rintro ⟨i, ⟨inside, lasts⟩, rfl⟩
    cases found : n.episodes[i]? with
    | none => simp [found] at lasts
    | some e => exact ⟨e, lookup_eq_ok_iff.mpr found, by simpa [found] using lasts⟩
  · rintro ⟨e, found, rfl⟩
    refine ⟨id.index, ⟨lookup_index_lt found, ?_⟩, rfl⟩
    simp [lookup_eq_ok_iff.mp found]

theorem addDuration_eq_error {start finish : EventId} {fault : Fault}
    (refused : addDuration start finish .unconstrained n = .error fault m) :
    ¬ n.CanLast start finish := by
  rintro ⟨both, last, s, ends, closes, narrowed⟩
  have done := addDuration_eq_ok_iff.mpr ⟨_, both, last, s, resolve_unconstrained, ends, closes,
    narrowed, Support.isEmpty_eq_false_of_tryAnd narrowed, rfl, rfl⟩
  rw [refused] at done
  cases done

theorem renews_of_eq_ok {ids : List EpisodeId} {renewals : List (EpisodeId × TemporalId)}
    (done : replacementDurations ids n = .ok renewals m) : Renews ids renewals n m := by
  induction ids generalizing n renewals with
  | nil =>
    obtain ⟨rfl, rfl⟩ := Attempt.pure_eq_ok_iff.mp done
    exact ⟨rfl, rfl, fun found => found, rfl, nofun, .nil⟩
  | cons id rest ih =>
    obtain ⟨e, n, read, renewed⟩ := Attempt.bind_eq_ok_iff.mp done
    obtain ⟨found, rfl⟩ := Attempt.read_eq_ok_iff.mp read
    obtain ⟨d, k, added, later⟩ := Attempt.bind_eq_ok_iff.mp renewed
    obtain ⟨others, _, made, last⟩ := Attempt.bind_eq_ok_iff.mp later
    obtain ⟨rfl, rfl⟩ := Attempt.pure_eq_ok_iff.mp last
    obtain ⟨bounds, both, closing, s, resolved, ends, closes, narrowed, _, rfl, rfl⟩ :=
      addDuration_eq_ok_iff.mp added
    obtain rfl := Except.ok.inj (resolve_unconstrained.symm.trans resolved)
    obtain ⟨frame, count, temporal, keys, fresh, apart⟩ := ih made
    rw [size_withLink] at count fresh
    have newest := temporal (lookup_push_self rfl)
    have free : m.Unconstrains ⟨n.temporals.size⟩ e.start e.finish := ⟨_, newest, rfl, rfl, rfl⟩
    have spans : n.SpansEvents m ⟨n.temporals.size⟩ e.start e.finish :=
      ⟨both, closing, s, ends, closes, narrowed, support_eq_ok_iff.mpr (map_eq_ok_iff.mpr ⟨_, newest, rfl⟩)⟩
    refine ⟨?_, ?_, fun older => temporal (lookup_push older),
      congrArg (id :: ·) keys, fun r member => ?_, List.nodup_cons.mpr ⟨?_, apart⟩⟩
    · rw [frame]
      rfl
    · rw [count, List.length_cons]
      omega
    · rcases List.mem_cons.mp member with rfl | member
      · exact ⟨Nat.le_refl _, e, found, free, spans⟩
      · obtain ⟨new, e', found', free', spans'⟩ := fresh r member
        exact ⟨by omega, e', found', free', spans'⟩
    · intro again
      obtain ⟨r, member, same⟩ := List.mem_map.mp again
      have := (fresh r member).1
      rw [same] at this
      exact absurd this (by simp)

/-- What is refused is refused for one of the episodes. -/
theorem exists_not_canLast {ids : List EpisodeId} {fault : Fault}
    (there : ∀ id ∈ ids, ∃ e, n.episode id = .ok e)
    (refused : replacementDurations ids n = .error fault m) :
    ∃ id ∈ ids, ∃ e, n.episode id = .ok e ∧ ¬ n.CanLast e.start e.finish := by
  induction ids generalizing n with
  | nil => cases refused
  | cons id rest ih =>
    obtain ⟨e, found⟩ := there id (List.mem_cons_self ..)
    rcases Attempt.bind_eq_error_iff.mp refused with missing | ⟨_, n, read, later⟩
    · obtain ⟨missing, _⟩ := Attempt.read_eq_error_iff.mp missing
      rw [found] at missing
      cases missing
    obtain ⟨found', rfl⟩ := Attempt.read_eq_ok_iff.mp read
    obtain rfl := Except.ok.inj (found.symm.trans found')
    rcases Attempt.bind_eq_error_iff.mp later with failed | ⟨d, k, added, later⟩
    · exact ⟨id, List.mem_cons_self .., e, found, addDuration_eq_error failed⟩
    · rcases Attempt.bind_eq_error_iff.mp later with failed | ⟨_, _, _, ⟨⟩⟩
      obtain ⟨_, _, _, _, _, _, _, _, _, _, rfl⟩ := addDuration_eq_ok_iff.mp added
      -- making a duration changes neither episodes nor events
      obtain ⟨other, member, f, there', unable⟩ := ih (n := withLink n _ _ _ _)
        (fun id member => there id (List.mem_cons_of_mem _ member)) failed
      exact ⟨other, List.mem_cons_of_mem _ member, f, there', unable⟩

/-- The episodes with new durations, once they are written. -/
theorem episode_of_renewals (renewals : List (EpisodeId × TemporalId)) {id : EpisodeId}
    {e : Episode} (found : n.episode id = .ok e) :
    let after := renewals.foldl (fun n (id, duration) => n.modifyEpisode id ({ · with duration })) n
    id ∉ renewals.map Prod.fst ∧ after.episode id = .ok e ∨
      ∃ duration, (id, duration) ∈ renewals ∧ after.episode id = .ok { e with duration } := by
  induction renewals generalizing n e with
  | nil => exact .inl ⟨List.not_mem_nil, found⟩
  | cons first rest ih =>
    obtain ⟨other, d⟩ := first
    by_cases same : other = id
    · subst same
      have written : (n.modifyEpisode other ({ · with duration := d })).episode other =
          .ok { e with duration := d } :=
        lookup_eq_ok_iff.mpr (getElem?_modify_self _ (lookup_eq_ok_iff.mp found))
      rcases ih written with ⟨_, last⟩ | ⟨d', member, last⟩
      · exact .inr ⟨d, List.mem_cons_self .., last⟩
      · exact .inr ⟨d', List.mem_cons_of_mem _ member, last⟩
    · have apart : (n.modifyEpisode other ({ · with duration := d })).episode id = .ok e :=
        (lookup_modify_of_ne same).trans found
      rcases ih apart with ⟨unwritten, last⟩ | ⟨d', member, last⟩
      · exact .inl ⟨by simp [unwritten, Ne.symm same], last⟩
      · exact .inr ⟨d', List.mem_cons_of_mem _ member, last⟩

/-- Writing durations changes nothing but episodes. -/
theorem renewals_frame (renewals : List (EpisodeId × TemporalId)) (n : Network) :
    ∃ episodes, renewals.foldl (fun n (id, duration) => n.modifyEpisode id ({ · with duration })) n =
      { n with episodes } ∧ episodes.size = n.episodes.size := by
  induction renewals generalizing n with
  | nil => exact ⟨n.episodes, rfl, rfl⟩
  | cons first rest ih =>
    obtain ⟨episodes, same, size⟩ := ih (n.modifyEpisode first.1 ({ · with duration := first.2 }))
    exact ⟨episodes, same, size.trans (Array.size_modify ..)⟩

/-- The network once the constraint has been struck from the episodes and the new
durations are written. -/
def strike (r : TemporalId) (renewals : List (EpisodeId × TemporalId)) (n : Network) : Network :=
  renewals.foldl (fun n (id, duration) => n.modifyEpisode id ({ · with duration }))
    { n with episodes := n.episodes.map fun e => { e with constraints := e.constraints.erase r } }

/-- Nothing but episodes has changed, and there are as many as before. -/
theorem strike_frame (r : TemporalId) (renewals : List (EpisodeId × TemporalId)) (n : Network) :
    ∃ episodes, strike r renewals n = { n with episodes } ∧ episodes.size = n.episodes.size := by
  obtain ⟨episodes, same, size⟩ := renewals_frame renewals
    { n with episodes := n.episodes.map fun e => { e with constraints := e.constraints.erase r } }
  exact ⟨episodes, same, size.trans (Array.size_map ..)⟩

theorem detachTemporal_eq_ok {r : TemporalId} {u : Unit} (done : detachTemporal r n = .ok u m) :
    ∃ renewals k, Renews (episodesLasting n r) renewals n k ∧ m = strike r renewals k := by
  obtain ⟨lasting, n, read, rest⟩ := Attempt.bind_eq_ok_iff.mp done
  obtain ⟨listed, rfl⟩ := Attempt.read_eq_ok_iff.mp read
  obtain rfl := Except.ok.inj listed
  obtain ⟨renewals, k, made, rest⟩ := Attempt.bind_eq_ok_iff.mp rest
  obtain ⟨_, _, struck, written⟩ := Attempt.bind_eq_ok_iff.mp rest
  obtain rfl := Attempt.modify_eq_ok_iff.mp struck
  exact ⟨renewals, k, renews_of_eq_ok made, Attempt.modify_eq_ok_iff.mp written⟩

/-- Either the duration of an episode stays, or it is the one that goes and is
replaced. -/
theorem episode_strike {r : TemporalId} {renewals : List (EpisodeId × TemporalId)}
    (renews : Renews (episodesLasting n r) renewals n k) {id : EpisodeId} {e : Episode}
    (found : n.episode id = .ok e) :
    e.duration ≠ r ∧
        (strike r renewals k).episode id = .ok { e with constraints := e.constraints.erase r } ∨
      e.duration = r ∧ ∃ d, (id, d) ∈ renewals ∧ (strike r renewals k).episode id =
        .ok { e with constraints := e.constraints.erase r, duration := d } := by
  have there : ({ k with episodes := k.episodes.map fun e => { e with
      constraints := e.constraints.erase r } } : Network).episode id =
        .ok { e with constraints := e.constraints.erase r } := by
    rw [episode, lookup_eq_ok_iff, Array.getElem?_map, renews.episodes,
      lookup_eq_ok_iff.mp found, Option.map_some]
  have lasts : id ∈ renewals.map Prod.fst ↔ e.duration = r := by
    rw [renews.keys, mem_episodesLasting_iff, found]
    simp
  rcases episode_of_renewals renewals there with ⟨unwritten, last⟩ | ⟨d, member, last⟩
  · exact .inl ⟨fun same => unwritten (lasts.mpr same), last⟩
  · exact .inr ⟨lasts.mp (List.mem_map_of_mem member), d, member, last⟩

theorem detaches_of_eq_ok {r : TemporalId} {u : Unit} (done : detachTemporal r n = .ok u m) :
    Detaches [r] n m := by
  obtain ⟨renewals, k, renews, rfl⟩ := detachTemporal_eq_ok done
  obtain ⟨_, frame, size⟩ := strike_frame r renewals k
  have temporals : (strike r renewals k).temporals = k.temporals := by rw [frame]
  refine ⟨?_, ?_, temporals.symm ▸ renews.grows, ?_, ?_, ?_⟩
  · rw [frame, renews.events]
  · rw [frame, size, renews.episodes]
  · intro id c found
    exact (congrArg (lookup · id) temporals).trans (renews.temporal found)
  · intro id e found
    rcases episode_strike renews found with ⟨stays, last⟩ | ⟨goes, d, member, last⟩
    · exact ⟨_, last, rfl, by simp, fun _ => rfl, by simp [stays]⟩
    · refine ⟨_, last, rfl, by simp, by simp [goes], fun _ => ?_⟩
      obtain ⟨new, e', found', ⟨c, there, rest⟩, _⟩ := renews.fresh _ member
      obtain rfl := Except.ok.inj (found.symm.trans found')
      exact ⟨new, c, (congrArg (lookup · d) temporals).trans there, rest⟩
  · intro a b e f e' f' differ ea fb ea' fb' eGoes fGoes same
    obtain ⟨stays, _⟩ | ⟨_, d, member, last⟩ := episode_strike renews ea
    · exact stays (by simpa using eGoes)
    obtain ⟨stays, _⟩ | ⟨_, d', member', last'⟩ := episode_strike renews fb
    · exact stays (by simpa using fGoes)
    obtain rfl := Except.ok.inj (last.symm.trans ea')
    obtain rfl := Except.ok.inj (last'.symm.trans fb')
    -- new durations are told apart, so they belong to the same episode
    have pair := List.inj_on_of_nodup_map renews.apart member member' same
    exact differ (congrArg Prod.fst pair)

theorem exists_not_canLast_of_detachTemporal {r : TemporalId} {fault : Fault}
    (refused : detachTemporal r n = .error fault m) :
    ∃ id e, n.episode id = .ok e ∧ e.duration = r ∧ ¬ n.CanLast e.start e.finish := by
  rcases Attempt.bind_eq_error_iff.mp refused with ⟨⟨⟩⟩ | ⟨lasting, n, read, rest⟩
  obtain ⟨listed, rfl⟩ := Attempt.read_eq_ok_iff.mp read
  obtain rfl := Except.ok.inj listed
  rcases Attempt.bind_eq_error_iff.mp rest with failed | ⟨_, _, _, changed⟩
  · have lasts (id : EpisodeId) (member : id ∈ episodesLasting n r) :=
      mem_episodesLasting_iff.mp member
    obtain ⟨id, member, e, found, unable⟩ := exists_not_canLast
      (fun id member => (lasts id member).imp fun _ => And.left) failed
    obtain ⟨_, there, lasting⟩ := lasts id member
    obtain rfl := Except.ok.inj (found.symm.trans there)
    exact ⟨id, e, found, lasting, unable⟩
  · rcases Attempt.bind_eq_error_iff.mp changed with ⟨⟨⟩⟩ | ⟨_, _, _, ⟨⟨⟩⟩⟩

theorem detaches_of_atomically {r : TemporalId} {u : Unit}
    (done : atomically (detachTemporal r) n = .ok u m) : Detaches [r] n m := by
  rcases of_atomically_eq_ok done with plain | ⟨k, inner, rfl⟩
  · exact detaches_of_eq_ok plain
  · exact (detaches_of_eq_ok inner).commit

theorem exists_not_canLast_of_atomically {r : TemporalId} {fault : Fault}
    (refused : atomically (detachTemporal r) n = .error fault m) :
    ∃ id e, n.episode id = .ok e ∧ e.duration = r ∧ ¬ n.CanLast e.start e.finish := by
  by_cases nested : n.journal.isSome = true
  · rw [atomically_of_nested nested] at refused
    exact exists_not_canLast_of_detachTemporal refused
  · rw [atomically_of_idle (by simpa using nested)] at refused
    obtain ⟨_, inner, _⟩ := Attempt.bracket_eq_error_iff.mp refused
    exact exists_not_canLast_of_detachTemporal (n := n.checkpoint) inner

theorem setBounds_eq_ok_iff {id : TemporalId} {lower upper : Number} {u : Unit} :
    setBounds id lower upper n = .ok u m ↔ (∃ c, n.temporal id = .ok c) ∧
      lower.le upper = true ∧ m = n.modifyTemporal id fun c =>
        { c with bounds := { c.bounds with lower, upper } } := by
  unfold setBounds
  simp only [Attempt.bind_eq_ok_iff, Attempt.read_eq_ok_iff, Attempt.ofExcept_eq_ok_iff,
    Attempt.modify_eq_ok_iff, checkBounds_eq_ok_iff]
  constructor
  · rintro ⟨c, _, ⟨found, rfl⟩, _, _, ⟨ordered, rfl⟩, rfl⟩
    exact ⟨⟨c, found⟩, ordered, rfl⟩
  · rintro ⟨⟨c, found⟩, ordered, rfl⟩
    exact ⟨c, n, ⟨found, rfl⟩, (), n, ⟨ordered, rfl⟩, rfl⟩

end Edit

/-! ## What removing is refused for -/

/-- A fault that an element is missing, or that supports exclude each other. -/
def Fault.OfPlace (fault : Fault) : Prop :=
  fault.category = .id ∨ fault.category = .inconsistentSupport

namespace Network

variable {fault : Fault} {start finish id : EventId}

theorem ofPlace_of_lookup {kind : ElementKind} {α : Type} {entries : Array α} {id : Handle kind}
    (missing : lookup entries id = .error fault) : fault.OfPlace := by
  unfold lookup at missing
  split at missing
  · cases missing
  · obtain rfl := Except.error.inj missing
    exact .inl rfl

theorem ofPlace_of_refuseClash {α : Type} {result : Except Clash α}
    (clash : refuseClash result = .error fault) : fault.OfPlace := by
  obtain ⟨_, _, rfl⟩ := refuseClash_eq_error_iff.mp clash
  exact .inr rfl

theorem ofPlace_of_support (refused : n.support (.event id) = .error fault) :
    fault.OfPlace := by
  cases found : n.event id with
  | ok e => simp [support, guard, found, Except.map] at refused
  | error missing =>
    simp only [support, guard, found, Except.map, Except.error.injEq] at refused
    subst refused
    exact ofPlace_of_lookup found

theorem ofPlace_of_endpointSupport (refused : n.endpointSupport start finish = .error fault) :
    fault.OfPlace := by
  rcases bind_eq_error_iff.mp refused with missing | ⟨_, _, rest⟩
  · exact ofPlace_of_support missing
  rcases bind_eq_error_iff.mp rest with missing | ⟨_, _, clash⟩
  · exact ofPlace_of_support missing
  · exact ofPlace_of_refuseClash clash

end Network

namespace Edit

theorem refuses_atomically {α : Type} {op : Edit α} {reason : Fault → Prop}
    (h : Attempt.Refuses reason op) : Attempt.Refuses reason (atomically op) := by
  intro n fault m refused
  by_cases nested : n.journal.isSome = true
  · rw [atomically_of_nested nested] at refused
    exact h n fault m refused
  · rw [atomically_of_idle (by simpa using nested)] at refused
    obtain ⟨k, inner, _⟩ := Attempt.bracket_eq_error_iff.mp refused
    exact h _ fault k inner

theorem refuses_linkUnder (start finish : EventId) (bounds : Bounds) (s : Support) :
    Attempt.Refuses Fault.OfPlace (linkUnder start finish bounds s) := by
  refine (Attempt.refuses_read fun _ _ => ofPlace_of_refuseClash).bind fun _ => ?_
  intro n fault m refused
  cases refused

/-- A duration that asks for nothing can be resolved. -/
theorem refuses_addDuration (start finish : EventId) :
    Attempt.Refuses Fault.OfPlace (addDuration start finish .unconstrained) := by
  refine (Attempt.refuses_read fun _ _ refused => ?_).bind fun _ =>
    (Attempt.refuses_read fun _ _ => ofPlace_of_endpointSupport).bind fun _ =>
    (Attempt.refuses_read fun _ _ => ofPlace_of_support).bind fun _ =>
    (Attempt.refuses_read fun _ _ => ofPlace_of_refuseClash).bind fun _ => refuses_linkUnder _ _ _ _
  rw [resolve_unconstrained] at refused
  cases refused

theorem refuses_replacementDurations (ids : List EpisodeId) :
    Attempt.Refuses Fault.OfPlace (replacementDurations ids) := by
  induction ids with
  | nil => exact Attempt.refuses_pure _
  | cons id rest ih =>
    exact (Attempt.refuses_read fun _ _ => ofPlace_of_lookup).bind fun e =>
      (refuses_addDuration e.start e.finish).bind fun _ => ih.bind fun _ => Attempt.refuses_pure _

theorem refuses_detachTemporal (r : TemporalId) :
    Attempt.Refuses Fault.OfPlace (detachTemporal r) := by
  refine (Attempt.refuses_read fun _ _ refused => ?_).bind fun lasting =>
    (refuses_replacementDurations lasting).bind fun _ =>
    (Attempt.refuses_modify _).bind fun _ => Attempt.refuses_modify _
  cases refused

end Edit

end PlanNetwork
