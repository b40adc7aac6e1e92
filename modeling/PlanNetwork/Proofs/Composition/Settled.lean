/-
# Episodes whose guards are path conditions

An episode is settled under a path if its guard, those of its events and that of
its duration are the support of the path, and everything inside it is settled
under the path from there on: the episodes of a sequence and those side by side
under the same path, those of a branching under the path with the value of their
branch behind it. The internal constraints have the support of the path they are
on, where the two links of a branch are behind its value.

Putting a choice in front of all the paths, at the guards of all parts, settles
the episode under the longer path. That is what propagation does.
-/

import PlanNetwork.Proofs.Composition.Parts
import PlanNetwork.Proofs.Network.Success

namespace PlanNetwork

/-- A path over choices that are older than some serial number. -/
structure PathBelow (bound : Nat) (literals : List Literal) : Prop extends IsPath literals where
  /-- The choices are older. -/
  older : ∀ a ∈ literals, a.choice.key < bound

namespace PathBelow

variable {bound : Nat} {literals : List Literal}

theorem nil : PathBelow bound [] := ⟨.nil, nofun⟩

theorem mono {later : Nat} (h : PathBelow bound literals) (le : bound ≤ later) :
    PathBelow later literals :=
  ⟨h.toIsPath, fun a member => Nat.lt_of_lt_of_le (h.older a member) le⟩

/-- A choice that is not older can be put in front of the path. -/
theorem cons (h : PathBelow bound literals) {subject : ChoiceVariable} (value : String)
    (new : bound ≤ subject.key) : PathBelow (subject.key + 1) (.is subject value :: literals) := by
  refine ⟨⟨List.pairwise_cons.mpr ⟨fun a member => ?_, h.apart⟩, fun a member => ?_⟩,
    fun a member => ?_⟩
  · have := h.older a member
    simp only [Literal.is]
    omega
  · rcases List.mem_cons.mp member with rfl | old
    · rfl
    · exact h.assigned a old
  · rcases List.mem_cons.mp member with rfl | old
    · exact Nat.lt_succ_self _
    · have := h.older a old
      omega

end PathBelow

namespace Network

variable {n m : Network} {touched : Guarded → Prop} {bound : Nat} {id : EpisodeId} {e : Episode}
  {literals : List Literal} {s : Support}

/-- The episode is there, and it, its events and its duration have the support. -/
structure Owns (n : Network) (id : EpisodeId) (e : Episode) (s : Support) : Prop where
  /-- It is there. -/
  found : n.episode id = .ok e
  /-- The support of the episode. -/
  episode : n.support (.episode id) = .ok s
  /-- The support of its start. -/
  start : n.support (.event e.start) = .ok s
  /-- The support of its end. -/
  finish : n.support (.event e.finish) = .ok s
  /-- The support of its duration. -/
  duration : n.support (.temporal e.duration) = .ok s

/-- The two links of a branch lead from the choice to the episode of the branch
and on to the common end, and have the support. -/
def Branches (n : Network) (choice finish : EventId) (s : Support) (branch : EpisodeId)
    (links : TemporalId × TemporalId) : Prop :=
  ∃ inner, n.episode branch = .ok inner ∧ n.Links links.1 choice inner.start s ∧
    n.Links links.2 inner.finish finish s

/-- The two links of every branch, in order. -/
def flatLinks (links : List (TemporalId × TemporalId)) : List TemporalId :=
  links.flatMap fun link => [link.1, link.2]

theorem mem_flatLinks {links : List (TemporalId × TemporalId)} {c : TemporalId} :
    c ∈ flatLinks links ↔ ∃ link ∈ links, c = link.1 ∨ c = link.2 := by
  simp [flatLinks]

/-- The episode is settled under a path over choices older than `bound`. -/
inductive Settled (n : Network) (bound : Nat) : EpisodeId → List Literal → Prop where
  /-- There is nothing inside the episode. -/
  | primitive {id : EpisodeId} {e : Episode} {literals : List Literal}
      (path : PathBelow bound literals) (owns : n.Owns id e (.ofPath literals))
      (composition : e.composition = .primitive) : Settled n bound id literals
  /-- All that is inside is executed. -/
  | series {id : EpisodeId} {e : Episode} {literals : List Literal} {ids : List EpisodeId}
      (path : PathBelow bound literals) (owns : n.Owns id e (.ofPath literals))
      (composition : e.composition = .sequence ids ∨ e.composition = .parallel ids)
      (constraints : ∀ c ∈ e.constraints.toList, n.support (.temporal c) = .ok (.ofPath literals))
      (older : ∀ child ∈ ids, child.index < id.index)
      (inside : ∀ child ∈ ids, Settled n bound child literals) : Settled n bound id literals
  /-- What is executed depends on a choice. -/
  | branching {id : EpisodeId} {e : Episode} {literals : List Literal} {ids : List EpisodeId}
      {event : Event} {choice : Choice} {links : List (TemporalId × TemporalId)}
      (path : PathBelow bound literals) (owns : n.Owns id e (.ofPath literals))
      (composition : e.composition = .branching e.start ids)
      (decided : n.event e.start = .ok event) (carried : event.choice = some choice)
      (covered : choice.subject.domain.length = ids.length)
      (paired : links.length = ids.length)
      (constraints : e.constraints = .ofList (flatLinks links))
      (linked : ∀ pair ∈ (choice.subject.domain.zip ids).zip links, n.Branches e.start e.finish
        (.ofPath (literals ++ [.is choice.subject pair.1.1])) pair.1.2 pair.2)
      (older : ∀ child ∈ ids, child.index < id.index)
      (inside : ∀ branch ∈ choice.subject.domain.zip ids,
        Settled n bound branch.2 (literals ++ [.is choice.subject branch.1])) :
      Settled n bound id literals

theorem Settled.path (h : n.Settled bound id literals) : PathBelow bound literals := by
  cases h with
  | primitive path | series path | branching path => exact path

theorem Settled.owns (h : n.Settled bound id literals) :
    ∃ e, n.Owns id e (.ofPath literals) := by
  cases h with
  | primitive _ owns | series _ owns | branching _ owns => exact ⟨_, owns⟩

/-! ## The parts of a settled episode -/

theorem mem_ownParts_iff (found : n.episode id = .ok e) {element : Guarded} :
    element ∈ n.ownParts id ↔ element = .episode id ∨ element = .event e.start ∨
      element = .event e.finish ∨ element = .temporal e.duration ∨
      e.isPrimitive = false ∧ ∃ c ∈ e.constraints.toList, element = .temporal c := by
  unfold ownParts
  rw [lookup_eq_ok_iff.mp found]
  cases composite : e.isPrimitive <;> simp [composite, @eq_comm _ element]

/-- What is an episode's own has its support, apart from internal constraints. -/
theorem Owns.support_or_mem (owns : n.Owns id e s) {element : Guarded}
    (own : element ∈ n.ownParts id) : n.support element = .ok s ∨
      ∃ c ∈ e.constraints.toList, e.isPrimitive = false ∧ element = .temporal c := by
  rcases (mem_ownParts_iff owns.found).mp own with rfl | rfl | rfl | rfl |
    ⟨composite, c, listed, rfl⟩
  · exact .inl owns.episode
  · exact .inl owns.start
  · exact .inl owns.finish
  · exact .inl owns.duration
  · exact .inr ⟨c, listed, composite, rfl⟩

/-- In lists of one length every entry of the second has a partner in the first. -/
theorem exists_mem_zip {α β : Type} {left : List α} {right : List β} {b : β}
    (same : left.length = right.length) (member : b ∈ right) : ∃ a, (a, b) ∈ left.zip right := by
  obtain ⟨i, there, rfl⟩ := List.mem_iff_getElem.mp member
  refine ⟨left[i], List.mem_iff_getElem.mpr ⟨i, ?_, List.getElem_zip⟩⟩
  rw [List.length_zip]
  omega

/-- The parts of an episode inside are parts of the whole. -/
theorem parts_subset_parts {child : EpisodeId} (found : n.episode id = .ok e)
    (older : ∀ child ∈ e.composition.episodes, child.index < id.index)
    (inside : child ∈ e.composition.episodes) : n.parts child ⊆ n.parts id := by
  intro element member
  refine mem_parts_iff.mpr (.inr ⟨child, ?_, member⟩)
  rwa [internalEpisodes_eq found older]

theorem forall_episodes_branching {P : EpisodeId → Prop} {choice : EventId} {ids : List EpisodeId}
    (composition : e.composition = .branching choice ids) (all : ∀ child ∈ ids, P child) :
    ∀ child ∈ e.composition.episodes, P child := by
  rwa [composition]

theorem forall_episodes_series {P : EpisodeId → Prop} {ids : List EpisodeId}
    (composition : e.composition = .sequence ids ∨ e.composition = .parallel ids)
    (all : ∀ child ∈ ids, P child) : ∀ child ∈ e.composition.episodes, P child := by
  rcases composition with composition | composition <;> rwa [composition]

/-! ## Moving -/

/-- What happens to the supports of paths when a network grows to another. -/
structure Moves (n m : Network) (front : List Literal) (bound later : Nat)
    (elements : List Guarded) : Prop where
  /-- Paths stay paths. -/
  path : ∀ {literals}, PathBelow bound literals → PathBelow later (front ++ literals)
  /-- The elements get the longer paths. -/
  support : ∀ {element literals}, element ∈ elements → PathBelow bound literals →
    n.support element = .ok (.ofPath literals) →
    m.support element = .ok (.ofPath (front ++ literals))

theorem Moves.sublist {front : List Literal} {later : Nat} {elements fewer : List Guarded}
    (h : Moves n m front bound later elements) (among : fewer ⊆ elements) :
    Moves n m front bound later fewer :=
  ⟨h.path, fun member => h.support (among member)⟩

theorem Owns.moved {front : List Literal} {later : Nat} (owns : n.Owns id e (.ofPath literals))
    (path : PathBelow bound literals) (grows : Grows touched n m)
    (moves : Moves n m front bound later (n.ownParts id)) :
    ∃ g, m.Owns id { e with guard := g } (.ofPath (front ++ literals)) := by
  have own {part : Guarded} := @mem_ownParts_iff n id e owns.found part
  obtain ⟨g, found⟩ := grows.episode owns.found
  exact ⟨g, found, moves.support (own.mpr (by simp)) path owns.episode,
    moves.support (own.mpr (by simp)) path owns.start,
    moves.support (own.mpr (by simp)) path owns.finish,
    moves.support (own.mpr (by simp)) path owns.duration⟩

theorem Links.moved {front : List Literal} {later : Nat} {c : TemporalId} {start finish : EventId}
    {elements : List Guarded} (links : n.Links c start finish (.ofPath literals))
    (path : PathBelow bound literals) (grows : Grows touched n m)
    (moves : Moves n m front bound later elements) (member : .temporal c ∈ elements) :
    m.Links c start finish (.ofPath (front ++ literals)) := by
  obtain ⟨support, constraint, found, starts, finishes⟩ := links
  obtain ⟨g, found'⟩ := grows.temporal found
  exact ⟨moves.support member path support, _, found', starts, finishes⟩

theorem Branches.moved {front : List Literal} {later : Nat} {choice finish : EventId}
    {branch : EpisodeId} {links : TemporalId × TemporalId} {elements : List Guarded}
    (branches : n.Branches choice finish (.ofPath literals) branch links)
    (path : PathBelow bound literals) (grows : Grows touched n m)
    (moves : Moves n m front bound later elements) (opening : .temporal links.1 ∈ elements)
    (closing : .temporal links.2 ∈ elements) :
    m.Branches choice finish (.ofPath (front ++ literals)) branch links := by
  obtain ⟨inner, found, opens, closes⟩ := branches
  obtain ⟨g, found'⟩ := grows.episode found
  exact ⟨_, found', opens.moved path grows moves opening, closes.moved path grows moves closing⟩

theorem isPrimitive_series {ids : List EpisodeId}
    (composition : e.composition = .sequence ids ∨ e.composition = .parallel ids) :
    e.isPrimitive = false := by
  unfold Episode.isPrimitive
  rcases composition with composition | composition <;> rw [composition] <;> rfl

/-- The links of the branches are all the constraints. -/
theorem mem_constraints_of_mem_links {links : List (TemporalId × TemporalId)}
    {link : TemporalId × TemporalId}
    (constraints : e.constraints = .ofList (flatLinks links))
    (member : link ∈ links) : link.1 ∈ e.constraints.toList ∧ link.2 ∈ e.constraints.toList := by
  have among {c : TemporalId} (either : c = link.1 ∨ c = link.2) : c ∈ e.constraints.toList := by
    have listed := mem_flatLinks.mpr ⟨link, member, either⟩
    obtain ⟨c', there, same⟩ := OrdSet.exists_mem_ofList listed
    rw [constraints, Handle.eq_of_compare_eq same]
    exact there
  exact ⟨among (.inl rfl), among (.inr rfl)⟩

/-- An episode that is settled under a path is settled under the longer path
once all its parts have got it. -/
theorem Settled.moved (front : List Literal) {later : Nat} (h : n.Settled bound id literals)
    (grows : Grows touched n m) (moves : Moves n m front bound later (n.parts id)) :
    m.Settled later id (front ++ literals) := by
  -- what moves the parts of the whole moves those of each episode inside it
  induction h with
  | primitive path owns composition =>
    obtain ⟨g, owns'⟩ := owns.moved path grows (moves.sublist (ownParts_subset_parts n _))
    exact .primitive (moves.path path) owns' composition
  | @series id e literals ids path owns composition constraints older inside ih =>
    have own := moves.sublist (ownParts_subset_parts n id)
    obtain ⟨g, owns'⟩ := owns.moved path grows own
    refine .series (moves.path path) owns' composition (fun c member => ?_) older
      fun child member => ih child member (moves.sublist ?_)
    · have part : .temporal c ∈ n.ownParts id :=
        (mem_ownParts_iff owns.found).mpr (by simp [isPrimitive_series composition, member])
      exact own.support part path (constraints c member)
    · exact parts_subset_parts owns.found (forall_episodes_series composition older)
        (by rcases composition with composition | composition <;> rwa [composition])
  | @branching id e literals ids event choice links path owns composition decided carried covered
      paired constraints linked older inside ih =>
    have own := moves.sublist (ownParts_subset_parts n id)
    have composite : e.isPrimitive = false := by rw [Episode.isPrimitive, composition]; rfl
    have part {c : TemporalId} (member : c ∈ e.constraints.toList) : .temporal c ∈ n.ownParts id :=
      (mem_ownParts_iff owns.found).mpr (by simp [composite, member])
    obtain ⟨g, owns'⟩ := owns.moved path grows own
    obtain ⟨g', decided'⟩ := grows.event decided
    refine .branching (moves.path path) owns' composition decided' carried covered paired
      constraints (fun pair member => ?_) older fun branch member => ?_
    · obtain ⟨branch, link⟩ := List.of_mem_zip member
      obtain ⟨opening, closing⟩ := mem_constraints_of_mem_links constraints link
      rw [List.append_assoc]
      exact (linked pair member).moved (inside _ branch).path grows own (part opening)
        (part closing)
    · rw [List.append_assoc]
      refine ih branch member (moves.sublist (parts_subset_parts owns.found ?_ ?_))
      · exact forall_episodes_branching composition older
      · rw [composition]
        exact (List.of_mem_zip member).2

/-- What is settled stays settled as long as no part is touched. -/
theorem Settled.grows (h : n.Settled bound id literals) (grows : Grows touched n m)
    {later : Nat} (le : bound ≤ later) (apart : ∀ element ∈ n.parts id, ¬ touched element) :
    m.Settled later id literals :=
  h.moved [] grows
    ⟨fun path => path.mono le, fun member _ found => grows.support (apart _ member) found⟩

/-- Every part of a settled episode has the support of a path. -/
theorem Settled.exists_path (h : n.Settled bound id literals) {element : Guarded}
    (member : element ∈ n.parts id) :
    ∃ literals, PathBelow bound literals ∧ n.support element = .ok (.ofPath literals) := by
  induction h with
  | @primitive id e literals path owns composition =>
    have empty : n.internalEpisodes id = [] := by
      rw [internalEpisodes_eq owns.found (by simp [composition, Composition.episodes]), composition]
      rfl
    rcases mem_parts_iff.mp member with own | ⟨child, inside, _⟩
    · rcases owns.support_or_mem own with found | ⟨_, _, composite, _⟩
      · exact ⟨literals, path, found⟩
      · simp [Episode.isPrimitive, composition, Composition.isPrimitive] at composite
    · simp [empty] at inside
  | @series id e literals ids path owns composition constraints older inside ih =>
    have internal : n.internalEpisodes id = ids := by
      rw [internalEpisodes_eq owns.found (forall_episodes_series composition older)]
      rcases composition with composition | composition <;> rw [composition] <;> rfl
    rcases mem_parts_iff.mp member with own | ⟨child, within, deep⟩
    · rcases owns.support_or_mem own with found | ⟨c, listed, _, rfl⟩
      · exact ⟨literals, path, found⟩
      · exact ⟨literals, path, constraints c listed⟩
    · rw [internal] at within
      exact ih child within deep
  | @branching id e literals ids event choice links path owns composition decided carried covered
      paired constraints linked older inside ih =>
    have internal : n.internalEpisodes id = ids := by
      rw [internalEpisodes_eq owns.found (forall_episodes_branching composition older), composition]
      rfl
    rcases mem_parts_iff.mp member with own | ⟨child, within, deep⟩
    · rcases owns.support_or_mem own with found | ⟨c, listed, _, rfl⟩
      · exact ⟨literals, path, found⟩
      · rw [constraints] at listed
        obtain ⟨link, among, either⟩ := mem_flatLinks.mp (OrdSet.mem_of_mem_ofList listed)
        have same : (choice.subject.domain.zip ids).length = links.length := by
          rw [List.length_zip]
          omega
        obtain ⟨branch, pair⟩ := exists_mem_zip same among
        obtain ⟨inner, _, opens, closes⟩ := linked _ pair
        refine ⟨_, (inside branch (List.of_mem_zip pair).1).path, ?_⟩
        rcases either with rfl | rfl
        · exact opens.1
        · exact closes.1
    · rw [internal] at within
      obtain ⟨value, branch⟩ := exists_mem_zip covered within
      exact ih (value, child) branch deep

end Network

end PlanNetwork
