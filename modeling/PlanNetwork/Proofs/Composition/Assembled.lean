/-
# Compositions from their leaves up

A composition starts from primitive episodes and ends with what has been composed of
them. At any time there are some episodes that have not been composed yet, and only
these can be. If the caller gives no events, then every episode has its own: composing
affects nothing of the others but choices, for which several branchings may ask.

So the guards of everything that has been assembled can be read off its structure, and
it can be said what has become of a branching when its end occurs. The execution goes on
after the branch that is selected, as far as the flags of the branches say. Whether this
branch has come to its end is another question, and the structure of the branch answers
it.
-/

import Mathlib.Data.List.Zip
import PlanNetwork.Proofs.Composition.Convergence

namespace PlanNetwork

open Network

variable {V : Vocabulary} {v : Valuation V} {known : Literal → Prop} {n m : Network} {α : Type}
  {id root : EpisodeId} {e : Episode} {roots : List EpisodeId}

/-! ## Making what episodes refer to -/

/-- The call makes no episode and leaves all guards alone. -/
def NetworkCall.Furnishes : NetworkCall α → Prop
  | addEventAs _ | addChoice _ | addQuantity .. | addTemporal .. | addAssignmentConstraint ..
  | addLinearConstraint .. | addChance .. => True
  | _ => False

theorem NetworkCall.tightens_run {call : NetworkCall α} (furnishes : call.Furnishes) :
    Edit.Tightens (fun _ => False) (fun _ => False) call.run n := by
  cases call <;> first | exact furnishes.elim | rw [NetworkCall.run]
  case addEventAs => exact Edit.tightens_addEventAs _
  case addChoice => exact Edit.tightens_addChoice _
  case addQuantity => exact Edit.tightens_addQuantity ..
  case addTemporal => exact Edit.tightens_addTemporal ..
  case addAssignmentConstraint => exact Edit.tightens_addAssignmentConstraint ..
  case addLinearConstraint => exact Edit.tightens_addLinearConstraint ..
  case addChance => exact Edit.tightens_addChance ..

theorem NetworkCall.brings_of_furnishes {call : NetworkCall α} (furnishes : call.Furnishes)
    (brought : Brought) : call.Brings brought := by
  cases call <;> first | exact furnishes.elim | trivial

theorem Composing.brings_call (composing : Composing) (brought : Brought) :
    composing.call.Brings brought := by
  cases composing <;> trivial

namespace Network

/-! ## What is assembled -/

/-- The network has been assembled from primitive episodes, none of which has been
composed twice or between given events. These episodes have not been composed. -/
inductive Assembled : Network → List EpisodeId → Prop where
  /-- Nothing is there. -/
  | empty (tolerance : Number) : Assembled (.empty tolerance) []
  /-- Something that is no episode is made. -/
  | furnish {n m : Network} {roots : List EpisodeId} {α : Type} {a : α}
      (assembled : Assembled n roots) (call : NetworkCall α) (furnishes : call.Furnishes)
      (done : call.run n = .ok a m) : Assembled m roots
  /-- A primitive episode is made. -/
  | primitive {n m : Network} {roots : List EpisodeId} {id : EpisodeId}
      (assembled : Assembled n roots) (spec : EpisodeSpec) (start : spec.start = none)
      (finish : spec.finish = none) (done : (NetworkCall.addEpisode spec).run n = .ok id m) :
      Assembled m (id :: roots)
  /-- Episodes are composed. -/
  | compose {n m : Network} {roots : List EpisodeId} {id : EpisodeId}
      (assembled : Assembled n roots) (composing : Composing)
      (unanchored : composing.options.Unanchored) (once : composing.built.episodes.Nodup)
      (among : ∀ child ∈ composing.built.episodes, child ∈ roots)
      (done : composing.call.run n = .ok id m) :
      Assembled m (id :: roots.filter (· ∉ composing.built.episodes))

/-- What a call that succeeds keeps, if the choices that there are in the end are within
the vocabulary. -/
structure Carries (known : Literal → Prop) (n m : Network) : Prop where
  /-- So were those that there were. -/
  offers : n.Offers known
  /-- What elements refer to is there. -/
  whole : n.WellFormed → m.WellFormed
  /-- Guards speak of choices only. -/
  uses : n.Uses known → m.Uses known

end Network

theorem NetworkCall.carries_of_ok {call : NetworkCall α} {a : α} (done : call.run n = .ok a m)
    (brings : call.Brings (.speaking known)) (offers : m.Offers known) : Carries known n m := by
  have echoes := call.echoes_run brings n
  rw [Attempt.after_of_ok done] at echoes
  exact ⟨fun found => offers (echoes.choice found), fun whole => (call.keeps_run n).of_ok whole done,
    echoes.uses offers⟩

namespace Network

theorem stands_empty (tolerance : Number) : (Network.empty tolerance).Stands v [] where
  whole := wellFormed_empty tolerance
  uses := uses_empty tolerance
  distinct := List.nodup_nil
  always := nofun
  apart := nofun
  sound := nofun

/-- In what has been assembled, the guards can be read off the structure. -/
theorem Assembled.stands (assembled : n.Assembled roots) (offers : n.Offers (Literal.Within V)) :
    n.Stands v roots := by
  induction assembled with
  | empty tolerance => exact stands_empty tolerance
  | furnish _ call furnishes done ih =>
    have carries := NetworkCall.carries_of_ok done (NetworkCall.brings_of_furnishes furnishes _) offers
    have stands := ih carries.offers
    exact stands.furnished ((NetworkCall.tightens_run furnishes).of_ok done)
      (carries.whole stands.whole) (carries.uses stands.uses)
  | primitive _ spec start finish done ih =>
    have carries := NetworkCall.carries_of_ok done trivial offers
    have stands := ih carries.offers
    obtain ⟨e, makes, leaf⟩ := Edit.makes_addEpisode (v := v) start finish done
    have none : e.composition.episodes = [] := by rw [leaf]; rfl
    have composed := stands.composed makes (by simp [none]) (carries.whole stands.whole)
      (carries.uses stands.uses) (by simp [none])
    simpa [none] using composed
  | compose _ composing unanchored once among done ih =>
    have carries := NetworkCall.carries_of_ok done (composing.brings_call _) offers
    have stands := ih carries.offers
    obtain ⟨e, makes, built⟩ := Composing.makes (v := v) unanchored stands.whole stands.uses done
    rw [← built] at once among ⊢
    exact stands.composed makes among (carries.whole stands.whole) (carries.uses stands.uses) once

theorem mem_zip_comm {α β : Type} {left : List α} {right : List β} {a : α} {b : β} :
    (a, b) ∈ left.zip right ↔ (b, a) ∈ right.zip left := by
  rw [← List.zip_swap right left, List.mem_map]
  simp

/-- A choice that has branches selects one of them. -/
theorem exists_picks_iff (whole : n.WellFormed) (offers : n.Offers (Literal.Within V))
    {choice : EventId} {ids : List EpisodeId} {data : Choice} (chosen : n.choice choice = .ok data)
    (same : data.subject.arity = ids.length) (some : ids ≠ []) :
    ∃ child ∈ ids, ∀ other, n.Picks v choice ids other ↔ other = child := by
  have values : data.subject.domain ≠ [] := by
    rintro none
    rw [ChoiceVariable.arity, none, List.length_nil] at same
    exact some (List.length_eq_zero_iff.mp same.symm)
  obtain ⟨value, listed⟩ := List.exists_mem_of_ne_nil _ values
  have domain : data.subject.domain = V.domain data.subject.key := (offers chosen value listed).1.1
  have taken : v.value data.subject.key ∈ data.subject.domain := domain ▸ v.mem _
  obtain ⟨child, paired⟩ := exists_mem_zip same.symm taken
  refine ⟨child, (List.of_mem_zip paired).1, fun other => ⟨?_, ?_⟩⟩
  · rintro ⟨data', chosen', selected⟩
    obtain rfl := Except.ok.inj (chosen.symm.trans chosen')
    exact eq_of_mem_zip (whole.nodup_domain chosen) (mem_zip_comm.mp selected) paired
  · rintro rfl
    exact ⟨data, chosen, mem_zip_comm.mp paired⟩

/-- Where a branching ends and some of its branches do not end the execution, the branch
that is selected is one of these. It has come to its end if and only if it has been got
through. -/
theorem Assembled.branching_ends (assembled : n.Assembled roots)
    (offers : n.Offers (Literal.Within V)) (v : Valuation V) (among : root ∈ roots)
    (inside : id ∈ n.unfolding root) (found : n.episode id = .ok e) {choice : EventId}
    {ids : List EpisodeId} (branching : e.composition = .branching choice ids)
    (running : e.terminal = false) (ends : n.Occurs v (.event e.finish)) :
    ∃ child f, (∀ other, n.Picks v choice ids other ↔ other = child) ∧
      n.episode child = .ok f ∧ f.terminal = false ∧
      (n.Occurs v (.event f.finish) ↔ n.ReachesEnd v child) := by
  have stands := assembled.stands (v := v) offers
  obtain ⟨_, coherent⟩ := stands.sound root among id inside
  obtain rfl := Except.ok.inj (coherent.found.symm.trans found)
  obtain ⟨occurs, reaches⟩ := coherent.ends.mp ends
  obtain ⟨⟨data, chosen, same⟩, going⟩ := coherent.branches _ _ branching
  obtain ⟨other, member, goes⟩ := going running
  obtain ⟨child, selected, picks⟩ :=
    exists_picks_iff (v := v) stands.whole offers chosen same (List.ne_nil_of_mem member)
  have directly : child ∈ n.internalEpisodes id := by
    rw [internalEpisodes_eq found (stands.whole.episode found).children, branching]
    exact selected
  obtain ⟨f, coherent'⟩ := stands.sound root among child
    (mem_unfolding_of_mem_internalEpisodes inside directly)
  have through : n.Continues v choice ids := by
    have through := (reachesEnd_iff found).mp reaches
    rwa [branching] at through
  have still := through ⟨other, member, goes⟩ child ((picks child).mpr rfl)
  have occurs' := (coherent.selected branching child selected).mpr ⟨occurs, (picks child).mpr rfl⟩
  refine ⟨child, f, picks, coherent'.found, ?_, ?_⟩
  · rwa [isTerminal_eq coherent'.found] at still
  · rw [coherent'.ends, and_iff_right occurs']

/-! ### A branch that may end the execution -/

/-- A choice, one branch of which is another choice. A branch of this one ends the
execution. -/
def endingInBranch : Network :=
  (Network.empty .zero).afterCalls [
    ⟨_, .addChoice { domain := ["A", "B"], kind := some .controllable }⟩,
    ⟨_, .addChoice { domain := ["A", "B"], kind := some .controllable }⟩,
    ⟨_, .addEpisode { terminal := true }⟩, ⟨_, .addEpisode {}⟩, ⟨_, .branch ⟨1⟩ [⟨0⟩, ⟨1⟩] {}⟩,
    ⟨_, .addEpisode {}⟩, ⟨_, .branch ⟨0⟩ [⟨2⟩, ⟨3⟩] {}⟩]

theorem assembled_endingInBranch : endingInBranch.Assembled [⟨4⟩] := by
  have choice := (Assembled.empty .zero).furnish
    (.addChoice { domain := ["A", "B"], kind := some .controllable }) trivial
    (Attempt.eq_ok_of_result? (a := ⟨0⟩) (by decide +kernel))
  have choices := choice.furnish
    (.addChoice { domain := ["A", "B"], kind := some .controllable }) trivial
    (Attempt.eq_ok_of_result? (a := ⟨1⟩) (by decide +kernel))
  have ending := choices.primitive { terminal := true } rfl rfl
    (Attempt.eq_ok_of_result? (a := ⟨0⟩) (by decide +kernel))
  have going := ending.primitive {} rfl rfl
    (Attempt.eq_ok_of_result? (a := ⟨1⟩) (by decide +kernel))
  have inner := going.compose (.branch ⟨1⟩ [⟨0⟩, ⟨1⟩] {}) ⟨rfl, rfl⟩ (by decide) (by decide)
    (Attempt.eq_ok_of_result? (a := ⟨2⟩) (by decide +kernel))
  have other := inner.primitive {} rfl rfl
    (Attempt.eq_ok_of_result? (a := ⟨3⟩) (by decide +kernel))
  have outer := other.compose (.branch ⟨0⟩ [⟨2⟩, ⟨3⟩] {}) ⟨rfl, rfl⟩ (by decide) (by decide)
    (Attempt.eq_ok_of_result? (a := ⟨4⟩) (by decide +kernel))
  simpa [endingInBranch, afterCalls, Composing.call, Composing.built, Composition.episodes] using outer

theorem offers_endingInBranch : endingInBranch.Offers (Literal.Within .binary) := by
  have domains : ∀ data ∈ endingInBranch.events.toList.filterMap (·.choice),
      data.subject.domain = ["A", "B"] := by decide +kernel
  intro id data found value inside
  have domain := domains data (mem_choices found)
  rw [domain] at inside
  exact ⟨⟨domain, fun _ => inside⟩, domain, fun _ => inside⟩

/-- The outer choice may select the inner one. -/
theorem picks_endingInBranch : endingInBranch.Picks .first ⟨0⟩ [⟨2⟩, ⟨3⟩] ⟨2⟩ := by
  have chosen : (endingInBranch.choice ⟨0⟩).toOption.map (·.subject.domain) = some ["A", "B"] := by
    decide +kernel
  obtain ⟨data, found, domain⟩ := Option.map_eq_some_iff.mp chosen
  refine ⟨data, toOption_eq_some_iff.mp found, ?_⟩
  rw [domain]
  exact List.mem_cons_self

/-- The execution goes on after the outer branching. -/
theorem outer_endingInBranch : ∃ e, endingInBranch.episode ⟨4⟩ = .ok e ∧
    e.composition = .branching ⟨0⟩ [⟨2⟩, ⟨3⟩] ∧ e.terminal = false ∧ e.finish = ⟨9⟩ := by
  have outer : (endingInBranch.episode ⟨4⟩).toOption.map
      (fun e => (e.composition, e.terminal, e.finish)) =
      some (.branching ⟨0⟩ [⟨2⟩, ⟨3⟩], false, ⟨9⟩) := by decide +kernel
  obtain ⟨e, found, same⟩ := Option.map_eq_some_iff.mp outer
  simp only [Prod.mk.injEq] at same
  exact ⟨e, toOption_eq_some_iff.mp found, same⟩

/-- The outer branching has ended, and the inner one is the branch that is selected. It
has come to its end if and only if it has been got through. -/
theorem branching_ends_ending_in_branch : endingInBranch.Assembled [⟨4⟩] ∧
    endingInBranch.Offers (Literal.Within .binary) ∧ ∃ child f,
      (∀ other, endingInBranch.Picks .first ⟨0⟩ [⟨2⟩, ⟨3⟩] other ↔ other = child) ∧
      endingInBranch.episode child = .ok f ∧ f.terminal = false ∧
      (endingInBranch.Occurs .first (.event f.finish) ↔ endingInBranch.ReachesEnd .first child) := by
  obtain ⟨e, found, branching, running, finish⟩ := outer_endingInBranch
  have ends : endingInBranch.Occurs .first (.event e.finish) := by
    rw [finish]
    decide +kernel
  exact ⟨assembled_endingInBranch, offers_endingInBranch,
    assembled_endingInBranch.branching_ends offers_endingInBranch .first (List.mem_singleton_self _)
      (mem_unfolding_self _ _) found branching running ends⟩

/-- The outer branching has ended although the branch that is selected has not: the inner
choice has selected the episode that ends the execution. -/
theorem branching_ends_before_branch : endingInBranch.Assembled [⟨4⟩] ∧
    endingInBranch.Offers (Literal.Within .binary) ∧ ∃ e f,
      endingInBranch.episode ⟨4⟩ = .ok e ∧ e.composition = .branching ⟨0⟩ [⟨2⟩, ⟨3⟩] ∧
      e.terminal = false ∧ endingInBranch.Occurs .first (.event e.finish) ∧
      endingInBranch.Occurs .first (.event ⟨0⟩) ∧
      endingInBranch.Picks .first ⟨0⟩ [⟨2⟩, ⟨3⟩] ⟨2⟩ ∧ endingInBranch.episode ⟨2⟩ = .ok f ∧
      ¬ endingInBranch.Occurs .first (.event f.finish) := by
  obtain ⟨e, found, branching, running, finish⟩ := outer_endingInBranch
  have inner : (endingInBranch.episode ⟨2⟩).toOption.map (·.finish) = some ⟨6⟩ := by decide +kernel
  obtain ⟨f, found', finish'⟩ := Option.map_eq_some_iff.mp inner
  refine ⟨assembled_endingInBranch, offers_endingInBranch, e, f, found, branching, running, ?_,
    by decide +kernel, picks_endingInBranch, toOption_eq_some_iff.mp found', ?_⟩
  · rw [finish]
    decide +kernel
  · rw [finish']
    decide +kernel

end Network

end PlanNetwork
