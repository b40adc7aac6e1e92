/-
# JSON that is written and read again

Every text and every finite number comes back as it was, and what JSON cannot write comes back
as nothing. A record comes back if its values do. What is read does not depend on what stands
behind it, as long as that cannot belong to a number.
-/

import Mathlib.Data.List.Basic
import PlanNetwork.Proofs.Number.Text
import PlanNetwork.Wire.Json

namespace PlanNetwork

namespace Json

/-! ## Texts -/

/-- The piece that a character is read as. Control characters without a letter of their own are
written by their numbers. -/
def pieceOf (c : Char) : Piece :=
  if c.toNat < 0x20 ∧ c ∉ ['\n', '\r', '\t', '\x08', '\x0c'] then .inr c.toNat else .inl c

theorem unit?_of_control : ∀ n < 0x20,
    (List.replicate (4 - (Nat.toDigits 16 n).length) '0' ++ Nat.toDigits 16 n).length = 4 ∧
      Scalar.digits? 16 (List.replicate (4 - (Nat.toDigits 16 n).length) '0' ++
        Nat.toDigits 16 n) = some n := by
  decide

theorem pieces_escape (c : Char) (rest : List Char) :
    pieces (escape c ++ rest) = (pieces rest).map fun found => (pieceOf c :: found.1, found.2) := by
  unfold escape
  simp only [beq_iff_eq]
  split_ifs
  next same => subst same; rfl
  next same => subst same; rfl
  next same => subst same; rfl
  next same => subst same; rfl
  next same => subst same; rfl
  next same => subst same; rfl
  next same => subst same; rfl
  next _ _ n r t b f control =>
    have piece : pieceOf c = .inr c.toNat := by simp [pieceOf, control, n, r, t, b, f]
    obtain ⟨width, value⟩ := unit?_of_control c.toNat control
    rw [piece, List.append_assoc ['\\', 'u']]
    generalize List.replicate (4 - (Nat.toDigits 16 c.toNat).length) '0' ++
      Nat.toDigits 16 c.toNat = digits at width value ⊢
    obtain ⟨x, y, z, w, rfl⟩ := List.length_eq_four.mp width
    simp only [List.cons_append, List.nil_append, pieces, unit?, value, Option.bind_some]
  next quote backslash _ _ _ _ _ other =>
    have piece : pieceOf c = .inl c := by simp [pieceOf, other]
    rw [piece, List.singleton_append, pieces]
    · rw [if_neg other]
    · exact quote
    · exact fun _ _ _ _ _ same => absurd same backslash
    · exact fun _ _ same => absurd same backslash

theorem pieces_flatMap_escape (cs rest : List Char) :
    pieces (cs.flatMap escape ++ '\x22' :: rest) = some (cs.map pieceOf, rest) := by
  induction cs with
  | nil => rfl
  | cons c cs ih =>
    rw [List.flatMap_cons, List.append_assoc, pieces_escape, ih]
    rfl

theorem joined_pieces (cs : List Char) : joined (cs.map pieceOf) = some cs := by
  induction cs with
  | nil => rfl
  | cons c cs ih =>
    rw [List.map_cons, pieceOf]
    split
    next control =>
      unfold joined
      rw [if_pos (.inl (by omega)), ih, Char.ofNat_toNat]
      rfl
    next =>
      rw [joined, ih]
      rfl

/-- A text in quotes is read as it was written. -/
theorem string_quoted (s : String) (rest : List Char) :
    ∃ cs, (quoted s).toList ++ rest = '\x22' :: cs ∧ string cs = some (.text s, rest) := by
  refine ⟨s.toList.flatMap escape ++ '\x22' :: rest, ?_, ?_⟩
  · simp [quoted]
  · simp only [string, pieces_flatMap_escape, Option.map_some, joined_pieces, Option.elim_some,
      String.ofList_toList]

/-! ## Numbers -/

/-- Whether a number begins with a character. -/
def BeginsNumber (c : Char) : Prop := c.isDigit = true ∨ c = '-'

instance : DecidablePred BeginsNumber := fun c =>
  inferInstanceAs (Decidable (c.isDigit = true ∨ c = '-'))

theorem isWellFormed_of_regular {n : Numeral} (regular : n.Regular) : isWellFormed n = true := by
  have fraction : n.fraction.all (!·.isEmpty) = true := by
    cases given : n.fraction with
    | none => rfl
    | some ds => simpa using (regular.fraction ds given).2
  unfold isWellFormed
  rw [fraction, Bool.and_true]
  split
  next none => rcases regular.leading with one | ⟨some, _⟩ <;> simp_all
  next zero => rcases regular.leading with one | ⟨_, first⟩ <;> simp_all
  next => rfl

theorem number_eq {negative : Bool} {cs body : List Char} {n : Numeral} {rest : List Char}
    (signed : cs = (if negative then ['-'] else []) ++ body) (unsigned : body.head? ≠ some '-')
    (regular : n.Regular) (scanned : Numeral.scan body = some (n, rest)) :
    number cs = some
      (if (n.toNumber negative).isFinite then .number (n.toNumber negative) else .unreadable,
        rest) := by
  unfold number
  split
  next sign behind found =>
    have parts : (sign, behind) = (negative, body) := by
      cases negative with
      | true =>
        subst signed
        exact found.symm
      | false =>
        subst signed
        split at found
        next => exact absurd rfl unsigned
        next => exact found.symm
    obtain ⟨rfl, rfl⟩ := Prod.mk.inj parts
    simp only [scanned, isWellFormed_of_regular regular, regular.marked]
    rfl

theorem number_written {n : Numeral} {rest : List Char} {x : Number} {negative : Bool}
    (regular : n.Regular) (ends : Numeral.Ends rest) (reads : n.toNumber negative = x)
    (finite : x.isFinite = true) :
    number ((if negative then ['-'] else []) ++ n.written ++ rest) = some (.number x, rest) := by
  obtain ⟨c, cs, shape, digit⟩ := regular.exists_cons
  have unsigned : (n.written ++ rest).head? ≠ some '-' := by
    rw [shape]
    rintro ⟨⟩
    exact absurd digit (by decide)
  rw [number_eq (List.append_assoc ..) unsigned regular (regular.scan ends), reads, if_pos finite]

/-- A finite number is written as a numeral that reads back. -/
theorem number_render {x : Number} {rest : List Char} (finite : x.isFinite = true)
    (ends : Numeral.Ends rest) :
    (∃ c cs, (x.render .data).toList = c :: cs ∧ BeginsNumber c) ∧
      number ((x.render .data).toList ++ rest) = some (.number x, rest) := by
  cases x with
  | nan => cases finite
  | infinite negative => cases finite
  | finite negative units fits =>
    obtain ⟨n, regular, written, reads⟩ := Number.exists_numeral fits
    have text : ((Number.finite negative units fits).render .data).toList =
        (if negative then ['-'] else []) ++ n.written := by
      rw [Number.render, String.toList_append, String.toList_ofList, written]
      cases negative <;> rfl
    rw [text]
    refine ⟨?_, number_written regular ends (reads negative) finite⟩
    obtain ⟨c, cs, shape, digit⟩ := regular.exists_cons
    cases negative with
    | true => exact ⟨'-', n.written, rfl, .inr rfl⟩
    | false => exact ⟨c, cs, shape, .inl digit⟩

/-! ## Values -/

/-- What may stand behind a value. -/
def Follows (rest : List Char) : Prop := ∀ c ∈ rest.head?, c = ',' ∨ c = '\x7d'

theorem Follows.ends {rest : List Char} (follows : Follows rest) : Numeral.Ends rest := by
  intro c first
  rcases follows c first with rfl | rfl <;> decide

/-- A tree that is written comes back as another one, which holds at most `height` records
inside each other. -/
def Returns (height : Nat) (tree again : Tree) : Prop :=
  ∀ fuel depth rest, (render tree).toList.length ≤ fuel → depth + height ≤ depthLimit →
    Follows rest → value fuel depth ((render tree).toList ++ rest) = some (again, rest)

theorem returns_null {tree : Tree} (text : render tree = "null") (height : Nat) :
    Returns height tree .null := by
  intro fuel depth rest enough _ _
  rw [text] at enough ⊢
  cases fuel with
  | zero => exact absurd enough (by decide)
  | succ fuel => rfl

theorem returns_text (s : String) (height : Nat) : Returns height (.text s) (.text s) := by
  intro fuel depth rest enough _ _
  have text : render (.text s) = quoted s := by rw [render]
  rw [text] at enough ⊢
  obtain ⟨cs, shape, reads⟩ := string_quoted s rest
  cases fuel with
  | zero => simp [quoted] at enough
  | succ fuel =>
    rw [shape]
    exact reads

theorem skip_cons {c : Char} (apart : c ∉ [' ', '\n', '\t', '\r']) (cs : List Char) :
    skip (c :: cs) = c :: cs := by
  refine List.dropWhile_cons_of_neg ?_
  simpa [or_assoc] using apart

theorem value_number {c : Char} (begins : BeginsNumber c) (fuel depth : Nat) (cs : List Char) :
    value (fuel + 1) depth (c :: cs) = number (c :: cs) := by
  have apart : c ∉ [' ', '\n', '\t', '\r'] := by
    intro space
    simp only [List.mem_cons, List.not_mem_nil, or_false] at space
    rcases space with rfl | rfl | rfl | rfl <;> exact absurd begins (by decide)
  have clash {d : Char} {ds : List Char} (same : c :: cs = d :: ds) (other : ¬ BeginsNumber d) :
      False := other ((List.cons.inj same).1 ▸ begins)
  unfold value
  rw [skip_cons apart]
  split
  next same => exact (clash same (by decide)).elim
  next same => exact (clash same (by decide)).elim
  next same => exact (clash same (by decide)).elim
  next same => exact (clash same (by decide)).elim
  next same => exact (clash same (by decide)).elim
  next same => exact (clash same (by decide)).elim
  next => rfl

theorem returns_number {x : Number} (finite : x.isFinite = true) (height : Nat) :
    Returns height (.number x) (.number x) := by
  intro fuel depth rest enough _ follows
  have text : render (.number x) = x.render .data := by rw [render, numberText, if_pos finite]
  rw [text] at enough ⊢
  obtain ⟨⟨c, cs, shape, begins⟩, reads⟩ := number_render finite follows.ends
  rw [shape] at enough reads ⊢
  cases fuel with
  | zero => simp at enough
  | succ fuel => exact (value_number begins fuel depth _).trans reads

/-! ## Records -/

/-- A field of a record. -/
def fieldText (field : String × Tree) : List Char :=
  (quoted field.1).toList ++ ':' :: (render field.2).toList

/-- The fields of a record, with commas between them. -/
def fieldsText (fields : List (String × Tree)) : List Char :=
  [','].intercalate (fields.map fieldText)

theorem toList_render_record (fields : List (String × Tree)) :
    (render (.record fields)).toList = '\x7b' :: fieldsText fields ++ ['\x7d'] := by
  have each : (renderFields (fields.map fun field => (.text field.1, field.2))).map
      String.toList = fields.map fieldText := by
    induction fields with
    | nil => rfl
    | cons field rest ih =>
      rw [List.map_cons, renderFields, List.map_cons, ih]
      simp [fieldText, Tree.asText]
  rw [Tree.record, render]
  simp only [String.toList_append, String.toList_intercalate, each, fieldsText]
  rfl

theorem value_record (fuel depth : Nat) (cs : List Char) :
    value (fuel + 1) depth ('\x7b' :: '\x22' :: cs) =
      (fields fuel (depth + 1) ('\x22' :: cs)).map fun found =>
        (nested depth (.map found.1), found.2) := rfl

theorem length_fieldText (field : String × Tree) :
    (render field.2).toList.length < (fieldText field).length := by
  simp [fieldText]
  omega

theorem fieldsText_cons_cons (f g : String × Tree) (fs : List (String × Tree)) :
    fieldsText (f :: g :: fs) = fieldText f ++ ',' :: fieldsText (g :: fs) := by
  simp [fieldsText]

theorem length_fieldsText (f : String × Tree) (fs : List (String × Tree)) :
    (fieldText f).length ≤ (fieldsText (f :: fs)).length := by
  cases fs with
  | nil => rw [fieldsText, List.map_singleton, List.intercalate_singleton]
  | cons g fs =>
    rw [fieldsText_cons_cons, List.length_append]
    omega

theorem exists_fieldsText {fs : List (String × Tree)} (some : fs ≠ []) :
    ∃ cs, fieldsText fs = '\x22' :: cs := by
  obtain ⟨f, fs, rfl⟩ := List.exists_cons_of_ne_nil some
  cases fs with
  | nil => exact ⟨_, by simp [fieldsText, fieldText, quoted]; rfl⟩
  | cons g fs => exact ⟨_, by rw [fieldsText_cons_cons]; simp [fieldText, quoted]; rfl⟩

/-- A field and what is read behind it: the end of the record, or more fields. -/
def fieldAndOthers (fuel depth : Nat) (field : Tree × Tree) (rest : List Char) :
    Option (List (Tree × Tree) × List Char) :=
  match skip rest with
  | '\x7d' :: rest => some ([field], rest)
  | ',' :: rest => (fields fuel depth rest).map fun found => (field :: found.1, found.2)
  | _ => none

/-- A field is read, and then the fields behind a comma. -/
theorem fields_field {height fuel depth : Nat} {field : String × Tree} {again : Tree}
    {rest : List Char} (returns : Returns height field.2 again)
    (enough : (fieldText field).length ≤ fuel + 1) (shallow : depth + height ≤ depthLimit)
    (follows : Follows rest) :
    fields (fuel + 1) depth (fieldText field ++ rest) =
      fieldAndOthers fuel depth (.text field.1, again) rest := by
  obtain ⟨cs, shape, key⟩ := string_quoted field.1 (':' :: (render field.2).toList ++ rest)
  have text : fieldText field ++ rest = '\x22' :: cs := by rw [← shape, fieldText]; simp
  have shorter := length_fieldText field
  have found := returns fuel depth rest (by omega) shallow follows
  have quote : skip ('\x22' :: cs) = '\x22' :: cs := rfl
  have colon : skip (':' :: (render field.2).toList ++ rest) =
    ':' :: ((render field.2).toList ++ rest) := rfl
  simp only [text, fields, quote, key, colon, found]
  rfl

/-- The fields of a record are read up to the closing brace. -/
theorem fields_written {height : Nat} {fs gs : List (String × Tree)} {rest : List Char}
    (each : List.Forall₂ (fun f g => g.1 = f.1 ∧ Returns height f.2 g.2) fs gs) (some : fs ≠ [])
    {fuel depth : Nat} (enough : (fieldsText fs).length ≤ fuel)
    (shallow : depth + height ≤ depthLimit) :
    fields fuel depth (fieldsText fs ++ '\x7d' :: rest) =
      .some (gs.map fun field => (.text field.1, field.2), rest) := by
  induction each generalizing fuel with
  | nil => exact absurd rfl some
  | @cons f g fs gs field others ih =>
    obtain ⟨name, returns⟩ := field
    have value := length_fieldText f
    have first := length_fieldsText f fs
    obtain ⟨fuel, rfl⟩ : ∃ k, fuel = k + 1 := ⟨fuel - 1, by omega⟩
    cases others with
    | nil =>
      have text : fieldsText [f] = fieldText f := List.intercalate_singleton
      have follows : Follows ('\x7d' :: rest) := by
        rintro _ ⟨⟩
        exact .inr rfl
      have brace : skip ('\x7d' :: rest) = '\x7d' :: rest := rfl
      simp only [text, fields_field returns (first.trans enough) shallow follows, fieldAndOthers,
        brace, List.map_cons, List.map_nil, name]
    | @cons f' g' fs gs field' others =>
      have follows : Follows (',' :: (fieldsText (f' :: fs) ++ '\x7d' :: rest)) := by
        rintro _ ⟨⟩
        exact .inl rfl
      have comma : skip (',' :: (fieldsText (f' :: fs) ++ '\x7d' :: rest)) =
        ',' :: (fieldsText (f' :: fs) ++ '\x7d' :: rest) := rfl
      have later : fields fuel depth (fieldsText (f' :: fs) ++ '\x7d' :: rest) = _ := ih nofun (by
        rw [fieldsText_cons_cons, List.length_append, List.length_cons] at enough
        omega)
      rw [fieldsText_cons_cons, List.append_assoc, List.cons_append]
      simp only [fields_field returns (first.trans enough) shallow follows, fieldAndOthers, comma,
        later, Option.map_some, List.map_cons, name]

/-- A record comes back if its values do. -/
theorem returns_record {height : Nat} {fs gs : List (String × Tree)}
    (each : List.Forall₂ (fun f g => g.1 = f.1 ∧ Returns height f.2 g.2) fs gs) (some : fs ≠ []) :
    Returns (height + 1) (.record fs) (.record gs) := by
  intro fuel depth rest enough shallow follows
  rw [toList_render_record, List.cons_append, List.length_cons, List.length_append] at enough
  obtain ⟨fuel, rfl⟩ : ∃ k, fuel = k + 1 := ⟨fuel - 1, by omega⟩
  have inner : fields fuel (depth + 1) (fieldsText fs ++ '\x7d' :: rest) = _ :=
    fields_written each some (by omega) (by omega)
  obtain ⟨cs, quote⟩ := exists_fieldsText some
  have text : (render (.record fs)).toList ++ rest =
      '\x7b' :: '\x22' :: (cs ++ '\x7d' :: rest) := by
    rw [toList_render_record, quote]
    simp
  rw [quote, List.cons_append] at inner
  have inside : depth < depthLimit := by omega
  rw [text, value_record, inner, Option.map_some]
  simp only [nested, if_pos inside, Tree.record]

/-- A whole text is a tree and nothing else. -/
theorem parse_render {tree again : Tree} (returns : Returns depthLimit tree again) :
    parse (render tree) = some again := by
  have reads := returns (2 * (render tree).toList.length + 2) 0 [] (by omega) (by omega) nofun
  rw [List.append_nil] at reads
  unfold parse
  dsimp only
  rw [reads]
  rfl

end Json

end PlanNetwork
