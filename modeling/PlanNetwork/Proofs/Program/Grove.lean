/-
# The choices and the constraints of a forest

While trees are built, no choice gets into a tree but those that its composites
select their branches by, and their variables are all different. No constraint
belongs to two episodes of a tree. All of this is so since an episode shares
nothing but events with the episodes inside it, and two trees share nothing.
-/

import PlanNetwork.Proofs.Program.Nesting

namespace PlanNetwork

open Network

variable {p q : Program} {done rest : List Node} {node : Node} {id root child : EpisodeId}
  {e : Episode} {n m : Network} {touched : Guarded → Prop} {subject : ChoiceVariable}

namespace Network

theorem Grows.ownConstraints (h : Grows touched n m) (found : n.episode id = .ok e) :
    m.ownConstraints id = n.ownConstraints id := by
  obtain ⟨g, found'⟩ := h.episode found
  unfold Network.ownConstraints
  rw [lookup_eq_ok_iff.mp found, lookup_eq_ok_iff.mp found']
  rfl

theorem Decides.grows (decides : n.Decides id subject) (grows : Grows touched n m) :
    m.Decides id subject := by
  obtain ⟨e, c, found, chosen, same⟩ := decides
  obtain ⟨event, there, carried⟩ := choice_eq_ok_iff.mp chosen
  obtain ⟨g, found'⟩ := grows.episode found
  obtain ⟨g', there'⟩ := grows.event there
  exact ⟨_, c, found', choice_eq_ok_iff.mpr ⟨_, there', carried⟩, same⟩

/-- A composite for a choice selects its branch by the event at its start. -/
theorem Answers.choice?_eq {domain : List String} (answers : n.Answers e node)
    (one : node.domain? = some domain) : e.composition.choice? = some e.start := by
  cases node with
  | leaf | sequence | parallel => cases one
  | decide | observe => rw [answers.1]; rfl

theorem Answers.choice?_eq_none (answers : n.Answers e node) (all : node.domain? = none) :
    e.composition.choice? = none := by
  cases node with
  | leaf | sequence | parallel => rw [show e.composition = _ from answers]; rfl
  | decide | observe => cases all

end Network

/-- The variable of a choice that has been asked for can be had. -/
theorem Forest.exists_decides (forest : Forest done p) {domain : List String}
    (choosing : Choosing done id domain) :
    ∃ subject, p.network.Decides id subject ∧ subject.domain = domain := by
  obtain ⟨node, made, one⟩ := choosing
  obtain ⟨e, found, answers⟩ := forest.answers id node made
  have decided : ∃ serial, p.network.IsChoice e.start domain serial := by
    cases node with
    | leaf | sequence | parallel => cases one
    | decide | observe =>
      cases one
      exact answers.2
  obtain ⟨_, event, c, there, carried, _, same⟩ := decided
  exact ⟨c.subject, ⟨e, c, found, choice_eq_ok_iff.mpr ⟨event, there, carried⟩, rfl⟩, same⟩

/-- A forest with what is known of its choices and of its constraints. -/
structure Grove (done : List Node) (p : Program) : Prop extends Forest done p where
  /-- Nothing is attached to a primitive episode. -/
  bare : ∀ {id e}, p.network.episode id = .ok e → e.isPrimitive = true → e.constraints = ∅
  /-- No constraint belongs to two episodes of a tree. -/
  unshared : ∀ root, IsRoot done root → (p.network.unfolding root).Pairwise p.network.Apart
  /-- The choices of a tree are those of its composites. -/
  choices : ∀ root, IsRoot done root → ∀ {event c}, .event event ∈ p.network.parts root →
    p.network.choice event = .ok c →
    ∃ id ∈ p.network.unfolding root, p.network.ChoiceOf done id event
  /-- Their variables are old. -/
  older : ∀ {id subject}, p.network.Chooses done id subject → subject.key < p.network.nextSerial
  /-- No two of them have the same variable. -/
  distinct : p.network.DistinctChoices done

theorem grove_nil (blank : p.Blank) : Grove [] p where
  toForest := forest_nil blank
  bare := fun found _ => by
    have := index_lt_size found
    rw [blank.episodes] at this
    exact (Nat.not_lt_zero _ this).elim
  unshared := fun _ root => (Nat.not_lt_zero _ root.1).elim
  choices := fun _ root => (Nat.not_lt_zero _ root.1).elim
  older := fun ⟨⟨_, _, made, _⟩, _⟩ => by simp at made
  distinct := fun ⟨⟨_, _, made, _⟩, _⟩ => by simp at made

/-! ## One more node -/

/-- The choices that have been asked for with one more call. -/
theorem choosing_append_iff {domain : List String} :
    Choosing (done ++ [node]) id domain ↔
      id.index < done.length ∧ Choosing done id domain ∨
        id.index = done.length ∧ node.domain? = some domain := by
  unfold Choosing
  rcases Nat.lt_trichotomy id.index done.length with old | last | past
  · simp [List.getElem?_append_left old, old, Nat.ne_of_lt old]
  · simp [last]
  · have beyond : (done ++ [node])[id.index]? = none := by
      rw [List.getElem?_eq_none_iff, List.length_append, List.length_singleton]
      omega
    simp [beyond, Nat.ne_of_gt past, Nat.not_lt_of_gt past]

namespace Grove

/-- The constraints of an episode in a tree are parts of the tree. -/
theorem mem_parts (grove : Grove done p) {x : EpisodeId} {c : TemporalId}
    (inside : x ∈ p.network.unfolding root) (own : c ∈ p.network.ownConstraints x)
    (found : p.network.episode root = .ok e) : .temporal c ∈ p.network.parts root := by
  obtain ⟨f, there⟩ := exists_of_mem_unfolding found inside
  refine List.mem_flatMap.mpr ⟨x, inside, (mem_ownParts_iff there).mpr ?_⟩
  rcases (mem_ownConstraints_iff there).mp own with rfl | listed
  · simp
  · cases composite : f.isPrimitive with
    | false => simp [listed]
    | true =>
      rw [grove.bare there composite] at listed
      cases listed

theorem child_ready (grove : Grove done p) (tree : Treelike (done ++ node :: rest))
    (inside : child ∈ node.children) : p.network.Ready p.network.nextSerial child :=
  grove.ready child (tree.isRoot_of_mem_children inside)

section Grow

variable (grove : Grove done p) (tree : Treelike (done ++ node :: rest))
  (grown : Program.Grown node p id e q)

include grove grown

/-- A choice is an old one, or the new one with a new variable. -/
theorem chooses_append {x : EpisodeId} (chooses : q.network.Chooses (done ++ [node]) x subject) :
    p.network.Chooses done x subject ∨ x = id ∧ p.network.nextSerial ≤ subject.key ∧
      subject.key < q.network.nextSerial := by
  obtain ⟨⟨domain, choosing⟩, decides⟩ := chooses
  rcases choosing_append_iff.mp choosing with ⟨_, old⟩ | ⟨last, one⟩
  · obtain ⟨subject', decides', _⟩ := grove.exists_decides old
    obtain rfl := (decides'.grows grown.made.grows).unique decides
    exact .inl ⟨⟨domain, old⟩, decides'⟩
  · obtain rfl : x = id :=
      congrArg Handle.mk (last.trans (grown.made.handle.trans grove.count).symm)
    obtain ⟨f, c, found, chosen, rfl⟩ := decides
    obtain rfl := Except.ok.inj (grown.made.owns.found.symm.trans found)
    obtain ⟨c', chosen', bounds⟩ := grown.made.subject _ (grown.answers.choice?_eq one)
    obtain rfl := Except.ok.inj (chosen.symm.trans chosen')
    exact .inr ⟨rfl, bounds⟩

/-- Old choices are still choices. -/
theorem choiceOf_append {x : EpisodeId} {event : EventId}
    (old : p.network.ChoiceOf done x event) :
    q.network.ChoiceOf (done ++ [node]) x event := by
  obtain ⟨⟨domain, choosing⟩, f, found, starts⟩ := old
  obtain ⟨g, found'⟩ := grown.made.grows.episode found
  have less : x.index < done.length := grove.count ▸ index_lt_size found
  exact ⟨⟨domain, choosing_append_iff.mpr (.inl ⟨less, choosing⟩)⟩, _, found', starts⟩

theorem distinct_append : q.network.DistinctChoices (done ++ [node]) := by
  intro a b s t chooses chooses' same
  rcases grove.chooses_append grown chooses with old | ⟨rfl, new, _⟩ <;>
    rcases grove.chooses_append grown chooses' with old' | ⟨rfl, new', _⟩
  · exact grove.distinct old old' same
  · have := grove.older old
    omega
  · have := grove.older old'
    omega
  · rfl

/-- No constraint belongs to two episodes of a tree that is there already. -/
theorem unshared_old (isRoot : IsRoot done root) :
    (p.network.unfolding root).Pairwise q.network.Apart := by
  obtain ⟨f, found⟩ := (grove.ready root isRoot).exists_episode
  refine (grove.unshared root isRoot).imp_of_mem fun {a b} ha hb apart => ?_
  obtain ⟨_, there⟩ := exists_of_mem_unfolding found ha
  obtain ⟨_, there'⟩ := exists_of_mem_unfolding found hb
  unfold Apart
  rw [grown.made.grows.ownConstraints there, grown.made.grows.ownConstraints there']
  exact apart

include tree

/-- What is inside the new episode. -/
theorem unfolding_append :
    q.network.unfolding id = id :: node.children.flatMap p.network.unfolding := by
  have older : ∀ child ∈ e.composition.episodes, child.index < id.index := by
    rw [grown.answers.episodes_eq, grown.made.handle, grove.count]
    exact fun child inside => (tree.isRoot_of_mem_children inside).1
  rw [unfolding_eq, internalEpisodes_eq grown.made.owns.found older, grown.answers.episodes_eq]
  refine congrArg _ (List.flatMap_congr fun child inside => ?_)
  obtain ⟨f, found⟩ := (grove.child_ready tree inside).exists_episode
  exact grown.made.grows.unfolding found

/-- No constraint belongs to two episodes of the new tree. -/
theorem unshared_new : (q.network.unfolding id).Pairwise q.network.Apart := by
  have grows := grown.made.grows
  have part {child x : EpisodeId} {c : TemporalId} (inside : child ∈ node.children)
      (within : x ∈ p.network.unfolding child) (own : c ∈ q.network.ownConstraints x) :
      .temporal c ∈ p.network.parts child := by
    obtain ⟨f, found⟩ := (grove.child_ready tree inside).exists_episode
    obtain ⟨_, there⟩ := exists_of_mem_unfolding found within
    rw [grows.ownConstraints there] at own
    exact grove.mem_parts within own found
  rw [grove.unfolding_append tree grown, List.pairwise_cons, List.pairwise_flatMap]
  refine ⟨fun x within c own own' => ?_, fun child inside => ?_, ?_⟩
  · obtain ⟨child, inside, within⟩ := List.mem_flatMap.mp within
    refine grown.made.constraints c ?_ ((grove.child_ready tree inside).has
      (part inside within own'))
    exact OrdSet.mem_insert_iff.mpr ((mem_ownConstraints_iff grown.made.owns.found).mp own)
  · exact grove.unshared_old grown (tree.isRoot_of_mem_children inside)
  · refine List.Pairwise.imp_of_mem (fun {a b} ha hb apart x within y within' c own own' => ?_)
      (grove.composable tree).2
    exact apart _ (part ha within own) (part hb within' own')

/-- The choices of the new tree are those of its composites. -/
theorem choices_new {event : EventId} {c : Choice}
    (part : .event event ∈ q.network.parts id) (chosen : q.network.choice event = .ok c) :
    ∃ x ∈ q.network.unfolding id, q.network.ChoiceOf (done ++ [node]) x event := by
  have grows := grown.made.grows
  rw [grove.unfolding_append tree grown]
  -- an event of an episode inside was a choice of that tree before
  have shared {child : EpisodeId} (inside : child ∈ node.children)
      (part : .event event ∈ p.network.parts child) :
      ∃ x ∈ id :: node.children.flatMap p.network.unfolding,
        q.network.ChoiceOf (done ++ [node]) x event := by
    have ready := grove.child_ready tree inside
    obtain ⟨x, within, old⟩ := grove.choices child (tree.isRoot_of_mem_children inside) part
      ((grows.choice_iff (ready.has part)).mp chosen)
    refine ⟨x, List.mem_cons_of_mem _ (List.mem_flatMap.mpr ⟨child, inside, within⟩), ?_⟩
    exact grove.choiceOf_append grown old
  have own (origin : Origin p.network q.network node.children e.composition event) :
      ∃ x ∈ id :: node.children.flatMap p.network.unfolding,
        q.network.ChoiceOf (done ++ [node]) x event := by
    rcases origin with ⟨child, inside, part⟩ | ⟨_, none | selects⟩
    · exact shared inside part
    · exact (none.choice_ne_ok chosen).elim
    · cases one : node.domain? with
      | none =>
        rw [grown.answers.choice?_eq_none one] at selects
        cases selects
      | some domain =>
        rw [grown.answers.choice?_eq one] at selects
        have last := grown.made.handle.trans grove.count
        exact ⟨id, List.mem_cons_self .., ⟨domain, choosing_append_iff.mpr (.inr ⟨last, one⟩)⟩, e,
          grown.made.owns.found, Option.some.inj selects⟩
  rcases mem_parts_iff.mp part with part | ⟨child, directly, part⟩
  · rcases (mem_ownParts_iff grown.made.owns.found).mp part with same | same | same | same |
      ⟨_, _, _, same⟩
    · cases same
    · obtain rfl := Guarded.event.inj same
      exact own grown.made.start
    · obtain rfl := Guarded.event.inj same
      exact own grown.made.finish
    · cases same
    · cases same
  · have inside := mem_episodes_of_mem_internalEpisodes grown.made.owns.found directly
    rw [grown.answers.episodes_eq] at inside
    rw [(grove.child_ready tree inside).parts_eq grows] at part
    exact shared inside part

/-- A call that makes one more episode leaves a grove behind. -/
theorem grow : id = ⟨done.length⟩ ∧ Grove (done ++ [node]) q := by
  have grows := grown.made.grows
  obtain ⟨last, forest⟩ := grove.toForest.grow tree grown
  have serial := grown.made.grows.serial
  refine ⟨last, forest, fun {x f} found primitive => ?_, fun root isRoot => ?_,
    fun root isRoot event c part chosen => ?_, fun chooses => ?_, grove.distinct_append grown⟩
  · by_cases new : x = id
    · subst new
      obtain rfl := Except.ok.inj (grown.made.owns.found.symm.trans found)
      exact grown.made.bare primitive
    · have less := index_lt_size found
      rw [grown.made.size, ← grown.made.handle] at less
      have differ : x.index ≠ id.index := fun same => new (congrArg Handle.mk same)
      have earlier : x.index < p.network.episodes.size := by
        rw [← grown.made.handle]
        omega
      obtain ⟨f', there⟩ := exists_episode earlier
      obtain ⟨g, there'⟩ := grows.episode there
      obtain rfl := Except.ok.inj (found.symm.trans there')
      have none : f'.constraints = ∅ := grove.bare there primitive
      exact none
  · rcases tree.isRoot_append_iff.mp isRoot with same | ⟨isRoot, _⟩
    · rw [same, ← last]
      exact grove.unshared_new tree grown
    · obtain ⟨f, found⟩ := (grove.ready root isRoot).exists_episode
      rw [grows.unfolding found]
      exact grove.unshared_old grown isRoot
  · rcases tree.isRoot_append_iff.mp isRoot with same | ⟨isRoot, _⟩
    · rw [same, ← last] at part ⊢
      exact grove.choices_new tree grown part chosen
    · have ready := grove.ready root isRoot
      obtain ⟨f, found⟩ := ready.exists_episode
      rw [grows.unfolding found]
      rw [ready.parts_eq grows] at part
      obtain ⟨x, within, old⟩ := grove.choices root isRoot part
        ((grows.choice_iff (ready.has part)).mp chosen)
      exact ⟨x, within, grove.choiceOf_append grown old⟩
  · rcases grove.chooses_append grown chooses with old | ⟨_, _, less⟩
    · exact Nat.lt_of_lt_of_le (grove.older old) serial
    · exact less

end Grow

/-! ## A run of calls -/

/-- Calls that were given no events and have succeeded leave a grove behind. -/
theorem of_all (grove : Grove done p) (tree : Treelike (done ++ rest))
    (unanchored : ∀ node ∈ rest, node.Unanchored) {ids : List EpisodeId}
    (built : Build.all rest p = .ok ids q) : Grove (done ++ rest) q := by
  induction rest generalizing done p ids with
  | nil =>
    obtain ⟨_, rfl⟩ := Attempt.pure_eq_ok_iff.mp built
    rwa [List.append_nil]
  | cons node rest ih =>
    obtain ⟨id, k, called, built⟩ := Attempt.bind_eq_ok_iff.mp built
    obtain ⟨others, _, later, ended⟩ := Attempt.bind_eq_ok_iff.mp built
    obtain ⟨_, rfl⟩ := Attempt.pure_eq_ok_iff.mp ended
    obtain ⟨ready, apart⟩ := grove.composable tree
    obtain ⟨e, grown⟩ := Node.grown_of_call grove.idle ready apart
      (unanchored node (List.mem_cons_self ..)) called
    obtain ⟨_, grove'⟩ := grove.grow tree grown
    rw [List.append_cons] at tree ⊢
    exact ih grove' tree (fun node member => unanchored node (List.mem_cons_of_mem _ member)) later

end Grove

end PlanNetwork
