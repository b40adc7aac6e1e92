/-
# The tokens of a mapping that is written in lines

A step of the lexer takes one token and at least one character. Two places that differ in gaps
alone go on in the same way. A key and the colon behind it open a block where they stand inside
the block around them, and go on with it where they stand at its column. A block ends in front
of what is not indented so far.
-/

import PlanNetwork.Proofs.Wire.Yaml.Plain

namespace PlanNetwork

namespace Yaml

namespace Lexer

variable {s t u : Lexer}

/-! ## Steps -/

/-- What is read from one place is read from another one on the way to it, and there is a
character for each token on the way. -/
def Leads (s t : Lexer) : Prop :=
  ∃ n, t.place.rest.length + n ≤ s.place.rest.length ∧ ∀ fuel, run (fuel + n) s = run fuel t

theorem Leads.trans (first : s.Leads t) (second : t.Leads u) : s.Leads u := by
  obtain ⟨n, shorter, runs⟩ := first
  obtain ⟨m, shorter', runs'⟩ := second
  refine ⟨m + n, by omega, fun fuel => ?_⟩
  rw [← Nat.add_assoc, runs, runs']

/-- Only the place behind the gap counts. -/
theorem leads_of_advance (same : s.advance = t.advance)
    (shorter : t.place.rest.length ≤ s.place.rest.length) : s.Leads t := by
  refine ⟨0, shorter, fun fuel => ?_⟩
  cases fuel with
  | zero => rfl
  | succ fuel => rw [Nat.add_zero, run, run, same]

theorem leads_of_token {c : Char} {rest : List Char} (gap : s.advance = some u)
    (here : u.place.rest = c :: rest) (token : u.token c rest = some t)
    (shorter : t.place.rest.length < s.place.rest.length) : s.Leads t := by
  refine ⟨1, shorter, fun fuel => ?_⟩
  rw [run, gap, Option.bind_some, here]
  simp only [token, Option.bind_some]

/-! ## Between tokens -/

/-- A lexer outside of brackets and keys. -/
def between (allowsKey : Bool) (tokens : List Token) (indents : List Nat) (place : Place) :
    Lexer where
  place := place
  tokens := tokens
  count := tokens.length
  indents := indents
  allowsKey := allowsKey
  candidate := none
  outer := []

variable {a flow : Bool} {before : List Token} {indents : List Nat} {line column : Nat}
  {cs rest : List Char}

theorem skipGap_of_begins (begins : Begins cs) :
    skipGap flow a false line column cs = (⟨line, column, cs⟩, a) := by
  cases cs with
  | nil => rfl
  | cons c rest =>
    obtain ⟨unbroken, others⟩ := begins c rfl
    simp only [List.mem_cons, List.not_mem_nil, or_false, not_or] at others
    obtain ⟨space, tab, hash, mark⟩ := others
    simp [skipGap, unbroken, space, tab, hash, mark]

theorem skipGap_space :
    skipGap flow a false line column (' ' :: cs) = skipGap flow a false line (column + 1) cs := rfl

theorem skipGap_spaces {j : Nat} :
    skipGap flow a false line column (spaces j ++ cs) =
      skipGap flow a false line (column + j) cs := by
  induction j generalizing column with
  | zero => rfl
  | succ j ih =>
    have step : skipGap flow a false line column (spaces (j + 1) ++ cs) =
      skipGap flow a false line (column + 1) (spaces j ++ cs) := rfl
    rw [step, ih, Nat.add_assoc, Nat.add_comm 1]

theorem skipGap_break :
    skipGap false a false line column ('\n' :: cs) = skipGap false true false (line + 1) 0 cs := by
  cases a <;> rfl

/-- The place behind a gap, with the blocks closed that end there. -/
theorem advance_between {b : Bool} {place : Place}
    (gap : skipGap false a false line column cs = (place, b)) :
    (between a before indents ⟨line, column, cs⟩).advance =
      some ((between b before indents place).closeBlocks fun i => decide (i ≤ place.column)) := by
  have flow : (between a before indents ⟨line, column, cs⟩).inFlow = false := rfl
  unfold advance
  rw [flow]
  dsimp only [between]
  rw [gap]
  rfl

/-- No block ends where the innermost one goes on. -/
theorem closeBlocks_inside {isBehind : Nat → Bool}
    (inside : ∀ i ∈ s.indents.head?, isBehind i = true) :
    s.closeBlocks isBehind = s := by
  have none : s.indents.takeWhile (fun i => !isBehind i) = [] := by
    cases shape : s.indents with
    | nil => rfl
    | cons i indents =>
      exact List.takeWhile_cons_of_neg (by simpa using inside i (by rw [shape]; rfl))
  unfold closeBlocks
  rw [none]
  exact ite_self s

theorem advance_begins (begins : Begins cs) (inside : ∀ i ∈ indents.head?, i ≤ column) :
    (between a before indents ⟨line, column, cs⟩).advance =
      some (between a before indents ⟨line, column, cs⟩) := by
  rw [advance_between (skipGap_of_begins begins)]
  exact congrArg some (closeBlocks_inside fun i here => decide_eq_true (inside i here))

/-- The innermost block ends in front of what is not indented so far. -/
theorem leads_closeBlock {i j : Nat} (before : List Token) (indents : List Nat) (line : Nat)
    (outside : j < i) (begins : Begins rest) :
    (between true before (i :: indents) ⟨line, j, rest⟩).Leads
      (between true (.closeBlock :: before) indents ⟨line, j, rest⟩) := by
  refine leads_of_advance ?_ (Nat.le_refl _)
  have close : decide (i ≤ j) = false := by simpa using outside
  rw [advance_between (skipGap_of_begins begins), advance_between (skipGap_of_begins begins)]
  simp only [closeBlocks, between, inFlow, close, List.isEmpty_nil, Bool.not_true,
    Bool.false_eq_true, if_false, Bool.not_false, List.takeWhile_cons_of_pos, List.length_cons]
  rw [List.replicate_succ', List.append_assoc, List.singleton_append, List.drop_succ_cons,
    Nat.add_assoc before.length, Nat.add_comm 1]

/-- The end of a line and the spaces in front of the next one are a gap. -/
theorem leads_line {j : Nat} (begins : Begins rest) :
    (between a before indents ⟨line, column, '\n' :: (spaces j ++ rest)⟩).Leads
      (between true before indents ⟨line + 1, j, rest⟩) := by
  refine leads_of_advance ?_ ?_
  · rw [advance_between (skipGap_of_begins begins)]
    refine advance_between (skipGap_break.trans (skipGap_spaces.trans ?_))
    rw [Nat.zero_add, skipGap_of_begins begins]
  · show rest.length ≤ ('\n' :: (spaces j ++ rest)).length
    simp
    omega

/-! ## Scalars without quotes -/

/-- What may begin a scalar without quotes is no other token. -/
theorem token_of_startsPlain {c : Char} (starts : startsPlain false (c :: rest) = true)
    (mark : isSeparator s.place.column (c :: rest) = false) (block : s.outer = []) :
    s.token c rest = s.plain := by
  have flow : s.inFlow = false := by simp [inFlow, block]
  have percent : c ≠ '%' := by
    rintro rfl
    cases starts
  unfold token
  rw [mark]
  simp only [percent, beq_iff_eq, Bool.and_eq_true, and_false, if_false, Bool.false_eq_true]
  split
  -- the signs that may begin a word as well
  case h_6 | h_7 | h_8 =>
    have word : endsWord rest = false := by simpa [startsPlain] using starts
    simp [word, flow]
  -- whatever has no other meaning
  case h_16 => rfl
  all_goals cases starts

/-- A lexer behind a key that is under way. -/
def keyed (tokens : List Token) (indents : List Nat) (place : Place) (key : Candidate) : Lexer :=
  { between false tokens indents place with candidate := some key }

/-- A word that may begin a scalar without quotes begins one. -/
theorem token_of_isPlain {c : Char} {ds : List Char} (plain : IsPlain (c :: ds))
    (block : s.outer = []) (here : s.place.rest = c :: (ds ++ rest))
    (behind : ∀ d ∈ rest.head?, d ≠ '-' ∧ d ≠ '.') :
    s.token c (ds ++ rest) = s.noteKey.bind fun s =>
      (scanPlain s.inFlow s.least [] Gap.none s.place.line s.place.column s.place.rest).map
        fun plain =>
          { s.push (.scalar (.plain (String.ofList plain.text))) with
            place := plain.behind, allowsKey := plain.endsLine } := by
  obtain ⟨starts, _, _, unmarked, _⟩ := plain.parts
  have starts : startsPlain false (c :: (ds ++ rest)) = true := startsPlain_append starts
  have mark : isSeparator s.place.column (c :: (ds ++ rest)) = false :=
    isSeparator_append unmarked behind
  have flow : s.inFlow = false := by simp [inFlow, block]
  rw [token_of_startsPlain starts mark block, Lexer.plain, flow, here, if_pos starts]

/-- The text of a key up to the colon. -/
theorem leads_key (before : List Token) (line : Nat) {key : List Char} (plain : IsPlain key)
    (inside : ∀ i ∈ indents.head?, i ≤ column) (ends : endsWord rest = true) :
    (between true before indents ⟨line, column, key ++ ':' :: rest⟩).Leads
      (keyed (.scalar (.plain (String.ofList key)) :: before) indents
        ⟨line, column + key.length, ':' :: rest⟩
        ⟨before.length, line, column, indents.head? == some column⟩) := by
  obtain ⟨c, ds, rfl, begins⟩ := plain.exists_cons
  have near : (between true before indents ⟨line, column, c :: (ds ++ ':' :: rest)⟩).least ≤
      column + 1 := by
    cases indents with
    | nil => exact Nat.zero_le _
    | cons i indents => exact Nat.succ_le_succ (inside i rfl)
  have read : scanPlain false _ [] Gap.none line column (c :: ds ++ ':' :: rest) = _ :=
    (scanPlain_text plain near).trans (scanPlain_colon ends)
  rw [List.reverse_reverse] at read
  refine leads_of_token (advance_begins (begins _) inside)
    (show _ = c :: (ds ++ ':' :: rest) from rfl) ?_ ?_
  · exact (token_of_isPlain plain rfl rfl (by rintro _ ⟨⟩; decide)).trans
      (congrArg (Option.map _) read)
  · show rest.length + 1 < (c :: ds ++ ':' :: rest).length
    rw [List.length_append, List.length_cons, List.length_cons]
    omega

theorem advance_keyed {key : Candidate} (fresh : key.isStale ⟨line, column, cs⟩ = false)
    (begins : Begins cs) (inside : ∀ i ∈ indents.head?, i ≤ column) :
    (keyed before indents ⟨line, column, cs⟩ key).advance =
      some (keyed before indents ⟨line, column, cs⟩ key) := by
  have kept : (keyed before indents ⟨line, column, cs⟩ key).dropStaleKeys =
      some (keyed before indents ⟨line, column, cs⟩ key) := by
    simp [dropStaleKeys, keyed, between, fresh]
  have flow : (keyed before indents ⟨line, column, cs⟩ key).inFlow = false := rfl
  unfold advance
  rw [flow]
  dsimp only [keyed, between] at kept ⊢
  rw [skipGap_of_begins begins]
  simp only [kept, Option.map_some]
  exact congrArg some (closeBlocks_inside fun i here => decide_eq_true (inside i here))

theorem isStale_key {position start : Nat} {required : Bool} (short : column ≤ start + keyLimit) :
    Candidate.isStale ⟨position, line, start, required⟩ ⟨line, column, cs⟩ = false := by
  simp [Candidate.isStale, short]

/-- A colon in front of a gap ends the key that is under way. -/
theorem leads_value {key : Candidate} {tokens : List Token} {indents' : List Nat}
    (ends : endsWord rest = true) (fresh : key.isStale ⟨line, column, ':' :: rest⟩ = false)
    (inside : ∀ i ∈ indents.head?, i ≤ column)
    (value : (keyed before indents ⟨line, column, ':' :: rest⟩ key).value =
      some (between false tokens indents' ⟨line, column + 1, rest⟩)) :
    (keyed before indents ⟨line, column, ':' :: rest⟩ key).Leads
      (between false tokens indents' ⟨line, column + 1, rest⟩) := by
  refine leads_of_token (advance_keyed fresh (by rintro _ ⟨⟩; decide) inside)
    (show _ = ':' :: rest from rfl) ?_ (Nat.lt_succ_self _)
  have percent : ((keyed before indents ⟨line, column, ':' :: rest⟩ key).place.column == 0 &&
    ':' == '%') = false := Bool.and_false _
  have mark : isSeparator (keyed before indents ⟨line, column, ':' :: rest⟩ key).place.column
    (':' :: rest) = false := rfl
  unfold token
  rw [percent, mark, ends, Bool.or_true]
  exact value

/-- A colon behind a key that stands inside the block around it opens another one. -/
theorem leads_colon_opening {key : Tree} {start : Nat} {required : Bool}
    (ends : endsWord rest = true) (inside : ∀ i ∈ indents.head?, i < start)
    (behind : start ≤ column) (short : column ≤ start + keyLimit) :
    (keyed (.scalar key :: before) indents ⟨line, column, ':' :: rest⟩
      ⟨before.length, line, start, required⟩).Leads
      (between false (.value :: .scalar key :: .key :: .openFields :: before) (start :: indents)
        ⟨line, column + 1, rest⟩) := by
  refine leads_value ends (isStale_key short) (fun i here => ?_) ?_
  · exact Nat.le_trans (Nat.le_of_lt (inside i here)) behind
  · have nested : ¬ start < (indents.head?.map (· + 1)).getD 0 := by
      cases indents with
      | nil => exact Nat.not_lt_zero _
      | cons i indents => exact Nat.not_lt.mpr (inside i rfl)
    have one : before.length + 1 - before.length = 1 := by omega
    have two : before.length + 1 + 1 - before.length = 2 := by omega
    simp [value, insert, openBlock, mark, push, keyed, between, inFlow, least, nested, one, two,
      Place.skip]

/-- A colon behind a key goes on with the block in whose column the key stands. -/
theorem leads_colon {key : Tree} {start : Nat} {required : Bool} (ends : endsWord rest = true)
    (behind : start ≤ column) (short : column ≤ start + keyLimit) :
    (keyed (.scalar key :: before) (start :: indents) ⟨line, column, ':' :: rest⟩
      ⟨before.length, line, start, required⟩).Leads
      (between false (.value :: .scalar key :: .key :: before) (start :: indents)
        ⟨line, column + 1, rest⟩) := by
  refine leads_value ends (isStale_key short) ?_ ?_
  · rintro _ ⟨⟩
    exact behind
  · have one : before.length + 1 - before.length = 1 := by omega
    simp [value, insert, openBlock, mark, push, keyed, between, inFlow, least, one, Place.skip]

/-- A value without quotes up to the beginning of the next line. -/
theorem leads_plain {i j : Nat} {text : List Char} (plain : IsPlain text)
    (inside : i ≤ column) (outside : j ≤ i) (begins : Begins rest) :
    (between false before (i :: indents)
        ⟨line, column, ' ' :: text ++ '\n' :: (spaces j ++ rest)⟩).Leads
      (between true (.scalar (.plain (String.ofList text)) :: before) (i :: indents)
        ⟨line + 1, j, rest⟩) := by
  obtain ⟨c, ds, rfl, starts⟩ := plain.exists_cons
  have gap : (between false before (i :: indents)
      ⟨line, column, ' ' :: (c :: ds) ++ '\n' :: (spaces j ++ rest)⟩).advance =
      some (between false before (i :: indents)
        ⟨line, column + 1, c :: (ds ++ '\n' :: (spaces j ++ rest))⟩) := by
    refine (advance_between (skipGap_space.trans (skipGap_of_begins (starts _)))).trans
      (congrArg some (closeBlocks_inside ?_))
    rintro _ ⟨⟩
    exact decide_eq_true (Nat.le_succ_of_le inside)
  have near : (between false before (i :: indents)
      ⟨line, column + 1, c :: (ds ++ '\n' :: (spaces j ++ rest))⟩).least ≤ column + 1 + 1 :=
    Nat.succ_le_succ (Nat.le_succ_of_le inside)
  have read : scanPlain false _ [] Gap.none line (column + 1)
      (c :: ds ++ '\n' :: (spaces j ++ rest)) = _ :=
    (scanPlain_text plain near).trans (scanPlain_line begins (Nat.lt_succ_of_le outside))
  rw [List.reverse_reverse] at read
  refine leads_of_token gap (show _ = c :: (ds ++ '\n' :: (spaces j ++ rest)) from rfl) ?_ ?_
  · exact (token_of_isPlain plain rfl rfl (by rintro _ ⟨⟩; decide)).trans
      (congrArg (Option.map _) read)
  · show rest.length < (' ' :: (c :: ds) ++ '\n' :: (spaces j ++ rest)).length
    simp
    omega

end Lexer

end Yaml

end PlanNetwork
