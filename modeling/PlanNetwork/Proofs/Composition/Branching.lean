/-
# Composing what depends on a choice

Adding a branch puts the choice in front of all paths inside its episode. The
links of the branch are narrowed by the value as well, which they have already
got from the episode. Nothing outside the episode is touched, so the branches
can be added in turn as long as their episodes have no part in common.
-/

import PlanNetwork.Proofs.Composition.Series

namespace PlanNetwork

open Network

variable {touched : Guarded → Prop} {n k m : Network} {bound : Nat} {id : EpisodeId} {e : Episode}
  {choice finish : EventId} {subject : ChoiceVariable} {value : String} {s : Support}

namespace Network

theorem Links.grows {c : TemporalId} {start : EventId} (links : n.Links c start finish s)
    (grows : Grows touched n m) (apart : ¬ touched (.temporal c)) : m.Links c start finish s := by
  obtain ⟨support, constraint, found, ends⟩ := links
  obtain ⟨g, found'⟩ := grows.temporal found
  exact ⟨grows.support apart support, _, found', ends⟩

theorem Branches.grows {links : TemporalId × TemporalId}
    (branches : n.Branches choice finish s id links) (grows : Grows touched n m)
    (opening : ¬ touched (.temporal links.1)) (closing : ¬ touched (.temporal links.2)) :
    m.Branches choice finish s id links := by
  obtain ⟨inner, found, opens, closes⟩ := branches
  obtain ⟨g, found'⟩ := grows.episode found
  exact ⟨_, found', opens.grows grows opening, closes.grows grows closing⟩

/-- Some branches of a choice have been added, each with two links. -/
structure Branched (choice finish : EventId) (subject : ChoiceVariable)
    (branches : List (String × EpisodeId)) (n m : Network)
    (links : List (TemporalId × TemporalId)) : Prop where
  /-- Only what is inside the branches has been touched. -/
  grown : Extends (fun element => ∃ branch ∈ branches, element ∈ n.parts branch.2) n m
  /-- The links come as pairs, one for each branch. -/
  paired : links.length = branches.length
  /-- The links are new. -/
  new : ∀ c ∈ flatLinks links, ¬ n.Has (.temporal c)
  /-- The links of a branch are behind its value. -/
  linked : ∀ pair ∈ branches.zip links,
    m.Branches choice finish (.ofPath [.is subject pair.1.1]) pair.1.2 pair.2
  /-- The value of a branch is in front of all paths inside it. -/
  inside : ∀ branch ∈ branches, m.Settled (subject.key + 1) branch.2 [.is subject branch.1]

theorem Branched.cons {branch : String × EpisodeId} {rest : List (String × EpisodeId)}
    {link : TemporalId × TemporalId} {links : List (TemporalId × TemporalId)}
    (first : Branched choice finish subject [branch] n k [link])
    (later : Branched choice finish subject rest k m links)
    (ready : ∀ b ∈ branch :: rest, n.Ready bound b.2)
    (apart : ∀ b ∈ rest, ∀ element ∈ n.parts branch.2, element ∉ n.parts b.2) :
    Branched choice finish subject (branch :: rest) n m (link :: links) := by
  have parts (b : String × EpisodeId) (member : b ∈ branch :: rest) : k.parts b.2 = n.parts b.2 :=
    (ready b member).parts_eq first.grown.toGrows
  have untouched : ∀ element, (n.Has element → element ∈ n.parts branch.2) →
      ¬ ∃ b ∈ rest, element ∈ k.parts b.2 := by
    rintro element within ⟨b, member, part⟩
    have listed := List.mem_cons_of_mem branch member
    rw [parts b listed] at part
    exact apart b member element (within ((ready b listed).has part)) part
  -- links that have just been made are in none of the later branches
  have fresh : ∀ c ∈ flatLinks [link], ¬ ∃ b ∈ rest, Guarded.temporal c ∈ k.parts b.2 :=
    fun c member => untouched _ fun there => (first.new c member there).elim
  refine ⟨?_, congrArg (· + 1) later.paired, ?_, ?_, ?_⟩
  · refine (first.grown.mono ?_).trans (later.grown.mono ?_)
    · rintro element _ ⟨b, member, part⟩
      rw [List.mem_singleton.mp member] at part
      exact ⟨branch, List.mem_cons_self .., part⟩
    · rintro element _ ⟨b, member, part⟩
      have listed := List.mem_cons_of_mem branch member
      exact ⟨b, listed, parts b listed ▸ part⟩
  · intro c member
    rcases List.mem_append.mp (show c ∈ flatLinks [link] ++ flatLinks links from member) with
      old | young
    · exact first.new c old
    · exact later.new c young ∘ first.grown.has
  · intro pair member
    rcases List.mem_cons.mp member with rfl | member
    · exact (first.linked _ (List.mem_singleton.mpr rfl)).grows later.grown.toGrows
        (fresh _ (mem_flatLinks.mpr ⟨link, List.mem_singleton.mpr rfl, .inl rfl⟩))
        (fresh _ (mem_flatLinks.mpr ⟨link, List.mem_singleton.mpr rfl, .inr rfl⟩))
    · exact later.linked pair member
  · intro b member
    rcases List.mem_cons.mp member with rfl | member
    · refine (first.inside b (List.mem_singleton.mpr rfl)).grows later.grown.toGrows
        (Nat.le_refl _) fun element part => untouched element fun _ => ?_
      rwa [parts b (List.mem_cons_self ..)] at part
    · exact later.inside b member

/-- A composite whose branches have all been added is settled. -/
theorem Branched.settled {c : Choice} {event : Event} {ids : List EpisodeId} {later : Nat}
    {links : List (TemporalId × TemporalId)}
    (branched : Branched e.start e.finish c.subject (c.subject.domain.zip ids) n k links)
    (grows : Grows (fun _ => False) k m) (owns : m.Owns id e .always)
    (composition : e.composition = .branching e.start ids) (decided : m.event e.start = .ok event)
    (carried : event.choice = some c) (covered : c.subject.domain.length = ids.length)
    (constraints : e.constraints = .ofList (flatLinks links))
    (older : ∀ child ∈ ids, child.index < id.index) (le : c.subject.key + 1 ≤ later) :
    m.Settled later id [] := by
  have paired : links.length = ids.length := by
    rw [branched.paired, List.length_zip]
    omega
  refine .branching .nil owns composition decided carried covered paired constraints
    (fun pair member => ?_) older fun branch member => ?_
  · exact (branched.linked pair member).grows grows not_false not_false
  · exact (branched.inside branch member).grows grows le fun _ _ => not_false

end Network

namespace Edit

/-- Propagating the value of a new choice into an episode puts it in front of
all paths inside the episode. -/
theorem yields_propagate_literal (ready : n.Ready bound id) (new : bound ≤ subject.key)
    (value : String) :
    (propagate id (.ofLiteral (.is subject value))).Yields n fun _ m =>
      Extends (· ∈ n.parts id) n m ∧ m.Settled (subject.key + 1) id [.is subject value] := by
  obtain ⟨e, owns, _⟩ := ready.exists_owns
  have front {literals : List Literal} (path : PathBelow bound literals) :
      PathBelow (subject.key + 1) (.is subject value :: literals) := path.cons value new
  refine (yields_propagate owns.found fun element member => ?_).mono fun _ m narrowed => ?_
  · obtain ⟨literals, path, found⟩ := ready.settled.exists_path member
    have longer := (front path).toIsPath
    exact ⟨_, _, found, Support.ofPath_tryAnd_ofLiteral longer,
      Support.ofPath_cons_tryAnd_ofLiteral longer⟩
  · have grown : Extends (· ∈ n.parts id) n m := .of_bare narrowed.bare narrowed.outside
    refine ⟨grown, ready.settled.moved [.is subject value] grown.toGrows ⟨front, ?_⟩⟩
    intro element literals member path found
    exact narrowed.inside member found (Support.ofPath_tryAnd_ofLiteral (front path).toIsPath)

/-- A link that is behind a value because one of its events is. -/
theorem yields_linkWith {start : EventId} {first second : Support} {literal : Literal}
    (starts : n.support (.event start) = .ok first)
    (finishes : n.support (.event finish) = .ok second)
    (both : first.tryAnd second = .ok (.ofPath [literal])) :
    (linkWith start finish literal).Yields n fun c m => Adds n m ∧ ¬ n.Has (.temporal c) ∧
      m.Links c start finish (.ofPath [literal]) := by
  refine (yields_link _ starts finishes both).bind fun c k ⟨added, new, links⟩ => ?_
  refine (yields_addLiteral links.1 (Support.requires_ofLiteral literal)).bind fun _ m same => ?_
  exact Attempt.yields_pure ⟨added.trans same.adds, new, links.grows same.adds.toGrows not_false⟩

theorem yields_addBranch (ready : n.Ready bound id) (new : bound ≤ subject.key) (value : String)
    (starts : n.support (.event choice) = .ok .always)
    (finishes : n.support (.event finish) = .ok .always)
    (start_apart : .event choice ∉ n.parts id) (finish_apart : .event finish ∉ n.parts id) :
    (addBranch choice finish subject value id).Yields n fun branch m => branch.terminal = false ∧
      ∃ link, branch.links = [link.1, link.2] ∧
        Branched choice finish subject [(value, id)] n m [link] := by
  have nil : PathBelow bound [] := .nil
  have path : IsPath [.is subject value] := (nil.cons value new).toIsPath
  obtain ⟨e, owns, running⟩ := ready.exists_owns
  refine (yields_propagate_literal ready new value).bind fun _ k ⟨grown, settled⟩ => ?_
  obtain ⟨inner, owns'⟩ := settled.owns
  refine Attempt.yields_read owns'.found ?_
  rw [running_of_grows grown.toGrows owns.found running owns'.found]
  refine (yields_linkWith (grown.support start_apart starts) owns'.start
    (Support.always_tryAnd_ofPath path)).bind fun opening k₁ ⟨added₁, new₁, links₁⟩ => ?_
  refine (yields_linkWith (added₁.support owns'.finish)
    (added₁.support (grown.support finish_apart finishes))
    (Support.ofPath_tryAnd_always path)).bind fun closing k₂ ⟨added₂, new₂, links₂⟩ => ?_
  have added := added₁.trans added₂
  obtain ⟨g, found⟩ := added.toGrows.episode owns'.found
  refine Attempt.yields_pure ⟨rfl, (opening, closing), rfl, ?_, rfl, ?_, ?_, ?_⟩
  · refine (grown.trans added.mono).mono fun element _ part => ?_
    exact ⟨_, List.mem_singleton.mpr rfl, part⟩
  · intro c member
    obtain ⟨link, there, either⟩ := mem_flatLinks.mp member
    rw [List.mem_singleton.mp there] at either
    rcases either with rfl | rfl
    · exact new₁ ∘ grown.has
    · exact new₂ ∘ added₁.has ∘ grown.has
  · intro pair member
    rw [List.mem_singleton.mp member]
    exact ⟨_, found, links₁.grows added₂.toGrows not_false, links₂⟩
  · intro branch member
    rw [List.mem_singleton.mp member]
    exact settled.grows added.toGrows (Nat.le_refl _) fun _ _ => not_false

theorem yields_addBranches {branches : List (String × EpisodeId)}
    (ready : ∀ b ∈ branches, n.Ready bound b.2) (new : bound ≤ subject.key)
    (apart : branches.Pairwise fun a b => ∀ element ∈ n.parts a.2, element ∉ n.parts b.2)
    (starts : n.support (.event choice) = .ok .always)
    (finishes : n.support (.event finish) = .ok .always)
    (start_apart : ∀ b ∈ branches, .event choice ∉ n.parts b.2)
    (finish_apart : ∀ b ∈ branches, .event finish ∉ n.parts b.2) :
    (addBranches choice finish subject branches).Yields n fun added m =>
      (∀ branch ∈ added, branch.terminal = false) ∧ ∃ links,
        added.flatMap (·.links) = flatLinks links ∧
        Branched choice finish subject branches n m links := by
  induction branches generalizing n with
  | nil => exact Attempt.yields_pure ⟨nofun, [], rfl, .refl n, rfl, nofun, nofun, nofun⟩
  | cons b rest ih =>
    obtain ⟨value, id⟩ := b
    have first : (value, id) ∈ (value, id) :: rest := List.mem_cons_self ..
    have later {b : String × EpisodeId} (member : b ∈ rest) : b ∈ (value, id) :: rest :=
      List.mem_cons_of_mem _ member
    obtain ⟨apart, apart'⟩ := List.pairwise_cons.mp apart
    refine (yields_addBranch (ready _ first) new value starts finishes (start_apart _ first)
      (finish_apart _ first)).bind fun branch k ⟨running, link, listed, branched⟩ => ?_
    have outside {element : Guarded} (apart : element ∉ n.parts id) :
        ¬ ∃ b ∈ [(value, id)], element ∈ n.parts b.2 := by simpa using apart
    have parts (b : String × EpisodeId) (member : b ∈ rest) : k.parts b.2 = n.parts b.2 :=
      (ready b (later member)).parts_eq branched.grown.toGrows
    -- the later branches have not been touched, so they are still ready
    have remaining := ih (n := k)
      (fun b member => (ready b (later member)).grows branched.grown.toGrows (Nat.le_refl _)
        fun element part => outside fun inside => apart b member element inside part)
      (apart'.imp_of_mem fun ha hb => by rw [parts _ ha, parts _ hb]; exact fun h => h)
      (branched.grown.support (outside (start_apart _ first)) starts)
      (branched.grown.support (outside (finish_apart _ first)) finishes)
      (fun b member => by rw [parts b member]; exact start_apart b (later member))
      (fun b member => by rw [parts b member]; exact finish_apart b (later member))
    refine remaining.bind fun added m ⟨others, links, flat, more⟩ => ?_
    refine Attempt.yields_pure ⟨?_, link :: links, ?_, branched.cons more ready apart⟩
    · intro branch' member
      rcases List.mem_cons.mp member with rfl | member
      · exact running
      · exact others branch' member
    · rw [List.flatMap_cons, flat, listed]
      rfl

/-- The branches of a choice that is new can be added if they are ready and have
no part in common, for then its event is in none of them. -/
theorem yields_addBranches_zip {ids : List EpisodeId} (added : Adds n k)
    (covered : subject.domain.length = ids.length) (ready : ∀ id ∈ ids, n.Ready bound id)
    (apart : ids.Pairwise fun a b => ∀ element ∈ n.parts a, element ∉ n.parts b)
    (new : bound ≤ subject.key) (starts : k.support (.event choice) = .ok .always)
    (finishes : k.support (.event finish) = .ok .always) (start_new : ¬ n.Has (.event choice))
    (finish_new : ¬ n.Has (.event finish)) :
    (addBranches choice finish subject (subject.domain.zip ids)).Yields k fun branches m =>
      (∀ branch ∈ branches, branch.terminal = false) ∧
      Extends (fun element => ∃ id ∈ ids, element ∈ n.parts id) k m ∧
      m.support (.event choice) = .ok .always ∧ m.support (.event finish) = .ok .always ∧
      ∃ links, branches.flatMap (·.links) = flatLinks links ∧
        Branched choice finish subject (subject.domain.zip ids) k m links := by
  have parts {id : EpisodeId} (member : id ∈ ids) : k.parts id = n.parts id :=
    (ready id member).parts_eq added.toGrows
  have inner {b : String × EpisodeId} (member : b ∈ subject.domain.zip ids) : b.2 ∈ ids :=
    (List.of_mem_zip member).2
  have outside {element : Guarded} (new : ¬ n.Has element) :
      ∀ b ∈ subject.domain.zip ids, element ∉ k.parts b.2 := by
    intro b member part
    rw [parts (inner member)] at part
    exact new ((ready b.2 (inner member)).has part)
  have apart' : (subject.domain.zip ids).Pairwise
      fun a b => ∀ element ∈ k.parts a.2, element ∉ k.parts b.2 := by
    have seconds : (subject.domain.zip ids).map (·.2) = ids :=
      List.map_snd_zip (Nat.le_of_eq covered.symm)
    rw [← seconds, List.pairwise_map] at apart
    refine apart.imp_of_mem fun ha hb separate => ?_
    rwa [parts (inner ha), parts (inner hb)]
  refine (yields_addBranches (fun b member => (ready b.2 (inner member)).adds added) new apart'
    starts finishes (outside start_new) (outside finish_new)).mono
    fun branches m ⟨running, links, flat, branched⟩ => ?_
  refine ⟨running, branched.grown.mono ?_, ?_, ?_, links, flat, branched⟩
  · rintro element _ ⟨b, member, part⟩
    exact ⟨b.2, inner member, parts (inner member) ▸ part⟩
  · exact branched.grown.support (by simpa using outside start_new) starts
  · exact branched.grown.support (by simpa using outside finish_new) finishes

/-- Episodes that are ready can be made the branches of a choice that is new, if
they have no part in common. -/
theorem yields_branch {event : Event} {c : Choice} {ids : List EpisodeId}
    {options : CompositionOptions} {bounds : Bounds} (unanchored : options.Unanchored)
    (resolved : (options.duration.getD .unconstrained).resolve = .ok bounds) (nonempty : ids ≠ [])
    (covered : c.subject.arity = ids.length) (ready : ∀ id ∈ ids, n.Ready bound id)
    (apart : ids.Pairwise fun a b => ∀ element ∈ n.parts a, element ∉ n.parts b)
    (added : Adds n k) (found : k.event choice = .ok event) (carried : event.choice = some c)
    (starts : k.support (.event choice) = .ok .always) (new : ¬ n.Has (.event choice))
    (le : bound ≤ n.nextSerial) (young : n.nextSerial ≤ c.subject.key)
    (less : c.subject.key < k.nextSerial) :
    (branch choice ids options).Yields k fun id m => ∃ e,
      Made (fun element => ∃ id ∈ ids, element ∈ n.parts id) options.id ids n m id e ∧
      e.composition = .branching e.start ids ∧
      m.IsChoice e.start c.subject.domain c.subject.key := by
  refine Attempt.yields_read (choice_eq_ok_iff.mpr ⟨event, found, carried⟩) ?_
  rw [if_neg (not_not.mpr covered)]
  refine yields_atomically (fun k₀ same => ?_) fun id m ⟨e, made, composed, decided⟩ =>
    ⟨e, made.commit, composed, decided⟩
  rw [unanchored.finish]
  refine yields_addEvent.bind fun finish k₁ ⟨added₁, new₁, finishes, plain⟩ => ?_
  have finish_new := (added.trans same.adds).not_has new₁
  have later := same.adds.trans added₁
  have grown := added.trans later
  refine (yields_addBranches_zip grown covered ready apart (Nat.le_trans le young) (later.support starts) finishes new
    finish_new).bind fun branches k₂ ⟨running, outer, starts, finishes, links, flat, branched⟩ => ?_
  -- every branch gets to the common end
  have none : branches.filter (·.terminal) = [] :=
    List.filter_eq_nil_iff.mpr fun branch member => by simp [running branch member]
  have continues : (([] : List Branch).length == c.subject.arity) = false := by
    have positive := List.length_pos_of_ne_nil nonempty
    rw [covered, List.length_nil, beq_eq_false_iff_ne]
    omega
  dsimp only
  rw [none, continues, if_neg (by simp), flat]
  refine (yields_addComposite resolved (.branching choice ids) (flatLinks links) starts
    finishes).mono fun id m
    ⟨k₃, e, numbered, counted, put, named, first, last, composed, internal, ends⟩ => ?_
  subst first last
  have grown₂ : Extends (fun element => ∃ id ∈ ids, element ∈ n.parts id) n k₃ :=
    (grown.mono.trans outer).trans numbered.mono
  have grows := numbered.toGrows.trans put.grows
  obtain ⟨_, there⟩ := later.toGrows.event found
  obtain ⟨_, there⟩ := outer.toGrows.event there
  obtain ⟨_, decided⟩ := grows.event there
  have bounded : c.subject.key + 1 ≤ m.nextSerial :=
    Nat.le_trans less (Nat.le_trans later.serial (Nat.le_trans outer.serial grows.serial))
  have settled : m.Settled m.nextSerial id [] :=
    branched.settled grows put.owns composed decided carried covered internal
      (fun child member => (ready child member).index_lt grown₂ put) bounded
  refine ⟨e, put.made grown₂ settled named (Nat.le_trans grown.serial outer.serial) (by omega) ends
    (.inr ⟨new, .inr (by rw [composed]; rfl)⟩)
    (.inr ⟨finish_new, .inl (plain.grows (outer.toGrows.trans numbered.mono.toGrows))⟩) ?_ ?_ ?_,
    composed, _, c, decided, carried, rfl, rfl⟩
  · intro link member
    rw [internal] at member
    exact branched.new link (OrdSet.mem_of_mem_ofList member) ∘ grown.has
  · intro primitive
    rw [Episode.isPrimitive, composed] at primitive
    cases primitive
  · intro event selects
    rw [composed] at selects
    cases selects
    exact ⟨c, choice_eq_ok_iff.mpr ⟨_, decided, carried⟩, young, by omega⟩

/-- They can be made the branches of a choice that is made for them. -/
theorem yields_branchNew {spec : ChoiceSpec} {kind : Controllability} {ids : List EpisodeId}
    {options : CompositionOptions} {bounds : Bounds} (unanchored : options.Unanchored)
    (resolved : (options.duration.getD .unconstrained).resolve = .ok bounds)
    (valid : spec.validate n.tolerance = .ok kind) (covered : spec.domain.length = ids.length)
    (ready : ∀ id ∈ ids, n.Ready bound id) (le : bound ≤ n.nextSerial)
    (apart : ids.Pairwise fun a b => ∀ element ∈ n.parts a, element ∉ n.parts b) :
    Attempt.Yields (addChoice spec >>= fun choice => branch choice ids options) n fun id m =>
      ∃ e, Made (fun element => ∃ id ∈ ids, element ∈ n.parts id) options.id ids n m id e ∧
        e.composition = .branching e.start ids ∧
        m.IsChoice e.start spec.domain n.nextSerial := by
  have nonempty : ids ≠ [] := by
    rintro rfl
    exact (ChoiceSpec.of_validate valid).2.1 (List.length_eq_zero_iff.mp covered)
  refine (yields_addChoice valid).bind
    fun choice k ⟨added, new, starts, ⟨event, c, found, carried, key, domain⟩, counted⟩ => ?_
  rw [← domain] at covered ⊢
  rw [← key] at counted ⊢
  exact yields_branch unanchored resolved nonempty covered ready apart added found carried starts
    new le (Nat.le_of_eq key.symm) (counted ▸ Nat.lt_succ_self _)

/-- What a branching on a new choice has made of episodes that are ready and have
no part in common. -/
theorem made_of_branchNew {spec : ChoiceSpec} {ids : List EpisodeId} {options : CompositionOptions}
    (unanchored : options.Unanchored) (ready : ∀ id ∈ ids, n.Ready bound id)
    (le : bound ≤ n.nextSerial)
    (apart : ids.Pairwise fun a b => ∀ element ∈ n.parts a, element ∉ n.parts b)
    (done : (addChoice spec >>= fun choice => branch choice ids options) n = .ok id m) :
    ∃ e, Made (fun element => ∃ id ∈ ids, element ∈ n.parts id) options.id ids n m id e ∧
      e.composition = .branching e.start ids ∧ m.IsChoice e.start spec.domain n.nextSerial := by
  obtain ⟨choice, k, added, branched⟩ := Attempt.bind_eq_ok_iff.mp done
  obtain ⟨kind, valid, _⟩ := Attempt.read_bind_eq_ok_iff.mp added
  obtain ⟨_, _, _, ⟨event, c, found, carried, _, domain⟩, _⟩ :=
    (yields_addChoice valid).of_eq_ok added
  obtain ⟨data, chosen, covered, _, _, _, _, _, _, _, _, _, _, _, _, composite⟩ :=
    branch_eq_ok branched
  obtain ⟨event', found', carried'⟩ := choice_eq_ok_iff.mp chosen
  obtain rfl := Except.ok.inj (found.symm.trans found')
  obtain rfl := Option.some.inj (carried.symm.trans carried')
  obtain ⟨_, resolved⟩ := exists_bounds_of_addComposite composite
  rw [ChoiceVariable.arity, domain] at covered
  exact (yields_branchNew unanchored resolved valid covered ready le apart).of_eq_ok done

end Edit

end PlanNetwork
