/-
# Records in lines that are read again

The lines of a value are cut into tokens whatever stands behind them, as long as it is not
indented further than the key in front. The tokens are those that the value is read off,
whatever tokens stand behind. A record is its keys and values one by one, between the two tokens
for its block.
-/

import Mathlib.Data.List.Forall2
import PlanNetwork.Proofs.Wire.Yaml.Lexing
import PlanNetwork.Wire.Yaml.Reader

namespace PlanNetwork

namespace Yaml

open Lexer

variable {i j k height line column : Nat} {name : String} {x : Tree} {fs : List (Tree × Tree)}
  {ts tss before : List Token} {indents : List Nat} {next : List Char}

/-! ## Keys -/

theorem wholeTree?_ne_text (s t : String) : Scalar.wholeTree? s ≠ some (some (.text t)) := by
  intro found
  obtain ⟨i, _, found⟩ := Option.bind_eq_some_iff.mp found
  dsimp only at found
  split_ifs at found <;> simp at found

theorem resolve_of_readsAsText (reads : readsAsText name = true) :
    Scalar.resolve name = some (.text name) := by
  unfold readsAsText at reads
  split at reads
  next s found =>
    rw [found]
    unfold Scalar.resolve at found
    split at found
    next => cases found
    next =>
      split at found
      next => cases found
      next =>
        split at found
        next whole => exact absurd (whole.trans (congrArg some found)) (wholeTree?_ne_text name s)
        next =>
          split at found
          next => exact found.symm
          next =>
            cases number : Scalar.number? name with
            | none =>
              rw [number] at found
              exact found.symm
            | some x =>
              rw [number] at found
              cases found
  next => rw [Bool.and_false] at reads; cases reads

/-- A name that is written as a key without quotes. -/
structure IsKey (name : String) : Prop where
  /-- It needs no quotes. -/
  bare : Form.of name = .plain
  /-- It is not too long. -/
  short : name.toList.length ≤ keyLimit

theorem of_form_plain (bare : Form.of name = .plain) :
    readsAsText name = true ∧ IsPlain name.toList := by
  unfold Form.of at bare
  dsimp only at bare
  split_ifs at bare with wild many literal blanks plain
  simp only [Bool.and_eq_true, Bool.or_eq_true, not_or, Bool.not_eq_true', Bool.not_eq_false,
    List.all_eq_true] at wild plain
  exact ⟨plain.1, plain.2, wild.1⟩

theorem IsKey.isPlain (key : IsKey name) : IsPlain name.toList := (of_form_plain key.bare).2

/-- Where anything is welcome, a key is still the text that it is. -/
theorem IsKey.resolve (key : IsKey name) : Scalar.resolve name = some (.text name) :=
  resolve_of_readsAsText (of_form_plain key.bare).1

theorem IsKey.keyText (key : IsKey name) : keyText name = name.toList := by
  rw [Yaml.keyText, key.bare]

/-! ## Lines and their tokens -/

/-- The value behind a key at the column `i` is cut into tokens up to where something stands
that is not indented further. -/
def Cuts (i : Nat) (tree : Tree) (tokens : List Token) : Prop :=
  ∀ ⦃j next⦄, j ≤ i → Begins next → ∀ before indents line column, i ≤ column →
    ∃ line', (between false before (i :: indents)
        ⟨line, column, valueLines i tree ++ (spaces j ++ next)⟩).Leads
      (between true (tokens.reverse ++ before) (i :: indents) ⟨line', j, next⟩)

/-- The same of the further fields of a mapping at the column `k`; what the lines begin with
is as far inside at most. -/
def CutsFields (k : Nat) (fields : List (Tree × Tree)) (tokens : List Token) : Prop :=
  ∀ ⦃j next⦄, j ≤ k → Begins next →
    ∃ j' next', fieldsLines k fields ++ (spaces j ++ next) = spaces j' ++ next' ∧
      j' ≤ k ∧ Begins next' ∧ ∀ before indents line,
        ∃ line', (between true before (k :: indents) ⟨line, j', next'⟩).Leads
          (between true (tokens.reverse ++ before) (k :: indents) ⟨line', j, next⟩)

theorem cuts_plain {text : List Char} (plain : IsPlain text)
    (lines : valueLines i x = ' ' :: text ++ ['\n']) :
    Cuts i x [.scalar (.plain (String.ofList text))] := by
  intro j next near begins before indents line column inside
  refine ⟨line + 1, ?_⟩
  rw [lines, List.append_assoc]
  exact leads_plain plain inside near begins

theorem endsWord_valueLines (rest : List Char) : endsWord (valueLines i x ++ rest) = true := by
  unfold valueLines
  split <;> rfl

/-- Behind the colon of a key come its value and the fields behind it. -/
theorem leads_fields (first : Cuts k x ts) (others : CutsFields k fs tss) (near : j ≤ k)
    (begins : Begins next) (before : List Token) (indents : List Nat) (line : Nat)
    (inside : k ≤ column) :
    ∃ line', (between false before (k :: indents)
        ⟨line, column, valueLines k x ++ (fieldsLines k fs ++ (spaces j ++ next))⟩).Leads
      (between true (tss.reverse ++ (ts.reverse ++ before)) (k :: indents) ⟨line', j, next⟩) := by
  obtain ⟨j', next', text, near', begins', goesOn⟩ := others near begins
  rw [text]
  obtain ⟨line', value⟩ := first near' begins' before indents line column inside
  obtain ⟨line'', behind⟩ := goesOn (ts.reverse ++ before) indents line'
  exact ⟨line'', value.trans behind⟩

theorem cutsFields_nil : CutsFields k [] [] := fun j next near begins =>
  ⟨j, next, rfl, near, begins, fun _ _ line => ⟨line, 0, Nat.le_refl _, fun _ => rfl⟩⟩

/-- Some fields, the first of which has this key and this value, behind the spaces in front. -/
def entry (k : Nat) (name : String) (x : Tree) (rest : List Char) : List Char :=
  name.toList ++ ':' :: (valueLines k x ++ rest)

theorem entry_append (rest more : List Char) :
    entry k name x rest ++ more = entry k name x (rest ++ more) := by
  simp [entry]

theorem begins_entry (key : IsKey name) (rest : List Char) : Begins (entry k name x rest) := by
  obtain ⟨c, cs, text, starts⟩ := key.isPlain.exists_cons
  rw [entry, text]
  exact starts _

theorem fieldsLines_cons (key : IsKey name) :
    fieldsLines k ((.text name, x) :: fs) = spaces k ++ entry k name x (fieldsLines k fs) := by
  have lines : fieldsLines k ((.text name, x) :: fs) =
      spaces k ++ keyText name ++ ':' :: valueLines k x ++ fieldsLines k fs := by
    rw [fieldsLines]
    rfl
  simp [lines, key.keyText, entry]

theorem valueLines_map (key : IsKey name) :
    valueLines i (.map ((.text name, x) :: fs)) =
      '\n' :: (spaces (i + 2) ++ entry (i + 2) name x (fieldsLines (i + 2) fs)) := by
  rw [← fieldsLines_cons key, valueLines, fieldsLines]
  simp

/-- The tokens of a field. -/
def fieldTokens (name : String) (value : List Token) : List Token :=
  .key :: .scalar (.plain name) :: .value :: value

theorem cutsFields_cons (key : IsKey name) (first : Cuts k x ts) (others : CutsFields k fs tss) :
    CutsFields k ((.text name, x) :: fs) (fieldTokens name ts ++ tss) := by
  intro j next near begins
  refine ⟨k, entry k name x (fieldsLines k fs ++ (spaces j ++ next)), ?_, Nat.le_refl k,
    begins_entry key _, fun before indents line => ?_⟩
  · rw [fieldsLines_cons key, List.append_assoc, entry_append]
  have colon : endsWord (valueLines k x ++ (fieldsLines k fs ++ (spaces j ++ next))) = true :=
    endsWord_valueLines _
  have inside : ∀ i ∈ (k :: indents).head?, i ≤ k := by
    rintro _ ⟨⟩
    exact Nat.le_refl k
  have front := (leads_key before line key.isPlain inside colon).trans
    (leads_colon colon (Nat.le_add_right ..) (Nat.add_le_add_left key.short k))
  obtain ⟨line', behind⟩ := leads_fields first others near begins
    (.value :: .scalar (.plain name) :: .key :: before) indents line
    (Nat.le_add_right_of_le (Nat.le_add_right k name.toList.length))
  rw [String.ofList_toList] at front
  refine ⟨line', ?_⟩
  simpa [fieldTokens, entry] using front.trans behind

/-- The first field of a mapping opens a block. -/
theorem leads_mapping (key : IsKey name) (first : Cuts k x ts) (others : CutsFields k fs tss)
    (near : j ≤ k) (begins : Begins next) (before : List Token) (line : Nat)
    (inside : ∀ i ∈ indents.head?, i < k) :
    ∃ line', (between true before indents
        ⟨line, k, entry k name x (fieldsLines k fs ++ (spaces j ++ next))⟩).Leads
      (between true ((fieldTokens name ts ++ tss).reverse ++ .openFields :: before) (k :: indents)
        ⟨line', j, next⟩) := by
  have colon : endsWord (valueLines k x ++ (fieldsLines k fs ++ (spaces j ++ next))) = true :=
    endsWord_valueLines _
  have front := (leads_key before line key.isPlain (fun i here => Nat.le_of_lt (inside i here))
    colon).trans
    (leads_colon_opening colon inside (Nat.le_add_right ..) (Nat.add_le_add_left key.short k))
  obtain ⟨line', behind⟩ := leads_fields first others near begins
    (.value :: .scalar (.plain name) :: .key :: .openFields :: before) indents line
    (Nat.le_add_right_of_le (Nat.le_add_right k name.toList.length))
  rw [String.ofList_toList] at front
  refine ⟨line', ?_⟩
  simpa [fieldTokens, entry] using front.trans behind

theorem cuts_mapping (key : IsKey name) (first : Cuts (i + 2) x ts)
    (others : CutsFields (i + 2) fs tss) :
    Cuts i (.map ((.text name, x) :: fs))
      (.openFields :: (fieldTokens name ts ++ tss ++ [.closeBlock])) := by
  intro j next near begins before indents line column _
  have behind : j < i + 2 := by omega
  have inside : ∀ i' ∈ (i :: indents).head?, i' < i + 2 := by
    rintro _ ⟨⟩
    omega
  obtain ⟨line', block⟩ :=
    leads_mapping key first others (Nat.le_of_lt behind) begins before (line + 1) inside
  have close := leads_closeBlock ((fieldTokens name ts ++ tss).reverse ++ .openFields :: before)
    (i :: indents) line' behind begins
  refine ⟨line', ?_⟩
  rw [valueLines_map key, List.cons_append, List.append_assoc, entry_append]
  simpa using (leads_line (begins_entry key _)).trans (block.trans close)

/-! ## Tokens and what they say -/

/-- Whether a token begins a value. -/
def Token.OpensValue : Token → Prop
  | .scalar _ | .openFields => True
  | _ => False

/-- Some tokens are a node, of at most `height` collections inside each other. -/
structure Describes (height : Nat) (tokens : List Token) (again : Tree) : Prop where
  /-- The node is not missing. -/
  opens : ∃ t ts, tokens = t :: ts ∧ t.OpensValue
  /-- The node is all of them. -/
  reads : ∀ ⦃fuel depth⦄, tokens.length + 2 ≤ fuel → depth + height ≤ depthLimit →
    ∀ behindKey rest handles anchors,
      node fuel depth true behindKey ⟨tokens ++ rest, handles, anchors⟩ =
        some (again, ⟨rest, handles, anchors⟩)

/-- The same of the fields of a block, up to its end. -/
def DescribesFields (height : Nat) (tokens : List Token) (again : List (Tree × Tree)) : Prop :=
  ∀ ⦃fuel depth⦄, tokens.length + 1 ≤ fuel → depth + height ≤ depthLimit →
    ∀ rest handles anchors,
      blockFields fuel depth ⟨tokens ++ .closeBlock :: rest, handles, anchors⟩ =
        some (again, ⟨rest, handles, anchors⟩)

section Nodes

variable {fuel depth : Nat} {behindKey : Bool} {rest : List Token}
  {handles : List (String × String)} {anchors : List (String × Tree)}

/-- Such a token stands behind no properties. -/
theorem node_eq {t : Token} (opens : t.OpensValue) :
    node (fuel + 1) depth true behindKey ⟨t :: rest, handles, anchors⟩ =
      content fuel depth true behindKey ⟨none, none⟩ ⟨t :: rest, handles, anchors⟩ := by
  have unnamed (r : Option (Tree × Reading)) :
      r.map (fun found => (found.1, found.2.named none found.1)) = r := by cases r <;> rfl
  cases t with
  | scalar _ | openFields =>
    unfold node
    exact unnamed _
  | _ => cases opens

theorem node_scalar {scalar : Tree} :
    node (fuel + 2) depth true behindKey ⟨.scalar scalar :: rest, handles, anchors⟩ =
      some (scalar, ⟨rest, handles, anchors⟩) := by
  rw [node_eq (t := .scalar scalar) trivial]
  unfold content
  cases behindKey <;> rfl

theorem node_openFields :
    node (fuel + 2) depth true behindKey ⟨.openFields :: rest, handles, anchors⟩ =
      (blockFields fuel (depth + 1) ⟨rest, handles, anchors⟩).map fun found =>
        (nested depth (.map found.1), found.2) := by
  rw [node_eq (t := .openFields) trivial]
  unfold content
  cases behindKey <;> rfl

theorem blockFields_closeBlock :
    blockFields (fuel + 1) depth ⟨.closeBlock :: rest, handles, anchors⟩ =
      some ([], ⟨rest, handles, anchors⟩) := by
  unfold blockFields
  rfl

end Nodes

theorem describes_scalar (height : Nat) (scalar : Tree) :
    Describes height [.scalar scalar] scalar := by
  refine ⟨⟨_, _, rfl, trivial⟩, fun fuel depth enough _ behindKey rest handles anchors => ?_⟩
  obtain ⟨fuel, rfl⟩ : ∃ k, fuel = k + 2 := ⟨fuel - 2, by simp at enough; omega⟩
  exact node_scalar

theorem describesFields_nil : DescribesFields height [] [] := by
  intro fuel depth enough _ rest handles anchors
  obtain ⟨fuel, rfl⟩ : ∃ k, fuel = k + 1 := ⟨fuel - 1, by simp at enough; omega⟩
  exact blockFields_closeBlock

theorem Describes.endsBlockField {again : Tree} (value : Describes height ts again)
    (rest : List Token) : endsBlockField (ts ++ rest) = false := by
  obtain ⟨t, ts, rfl, opens⟩ := value.opens
  cases t <;> first | rfl | cases opens

theorem describesFields_cons (name : String) {again : Tree} {others : List (Tree × Tree)}
    (value : Describes height ts again) (fields : DescribesFields height tss others) :
    DescribesFields height (fieldTokens name ts ++ tss) ((.plain name, again) :: others) := by
  intro fuel depth enough shallow rest handles anchors
  simp only [fieldTokens, List.length_append, List.length_cons] at enough
  obtain ⟨fuel, rfl⟩ : ∃ k, fuel = k + 3 := ⟨fuel - 3, by omega⟩
  have here : node (fuel + 2) depth true true
      ⟨ts ++ (tss ++ .closeBlock :: rest), handles, anchors⟩ = _ :=
    value.reads (by omega) shallow ..
  have there : blockFields (fuel + 2) depth ⟨tss ++ .closeBlock :: rest, handles, anchors⟩ = _ :=
    fields (by omega) shallow ..
  have tokens : fieldTokens name ts ++ tss ++ .closeBlock :: rest =
      .key :: .scalar (.plain name) :: .value :: (ts ++ (tss ++ .closeBlock :: rest)) := by
    simp [fieldTokens]
  have keyless : Yaml.endsBlockField
    (.scalar (.plain name) :: .value :: (ts ++ (tss ++ .closeBlock :: rest))) = false := rfl
  rw [tokens, blockFields]
  simp only [Reading.leaving, keyless, node_scalar, value.endsBlockField, here, there,
    Bool.false_eq_true, if_false, Option.bind_some, Option.map_some]

theorem describes_mapping {again : List (Tree × Tree)} (fields : DescribesFields height ts again) :
    Describes (height + 1) (.openFields :: (ts ++ [.closeBlock])) (.map again) := by
  refine ⟨⟨_, _, rfl, trivial⟩, fun fuel depth enough shallow behindKey rest handles anchors => ?_⟩
  simp only [List.length_append, List.length_cons] at enough
  obtain ⟨fuel, rfl⟩ : ∃ k, fuel = k + 2 := ⟨fuel - 2, by omega⟩
  have inner : blockFields fuel (depth + 1) ⟨ts ++ .closeBlock :: rest, handles, anchors⟩ = _ :=
    fields (by omega) (by omega) ..
  have inside : depth < depthLimit := by omega
  rw [List.cons_append, List.append_assoc, List.singleton_append, node_openFields, inner]
  simp only [Option.map_some, nested, if_pos inside]

/-! ## Texts and what they say -/

/-- A value that is written behind a key comes back as another one, which holds at most `height`
collections inside each other. -/
def Returns (height : Nat) (tree again : Tree) : Prop :=
  ∃ tokens, (∀ i, Cuts i tree tokens) ∧ Describes height tokens again ∧
    ∀ i, ∀ c ∈ valueLines i tree, isPrintable c = true

/-- The fields of a record as those of a mapping. -/
def mapping (write : String → Tree) (fields : List (String × Tree)) : List (Tree × Tree) :=
  fields.map fun field => (write field.1, field.2)

theorem returns_plain {text : List Char} (plain : IsPlain text)
    (lines : ∀ i, valueLines i x = ' ' :: text ++ ['\n']) (height : Nat) :
    Returns height x (.plain (String.ofList text)) := by
  refine ⟨_, fun i => cuts_plain plain (lines i), describes_scalar height _, fun i c member => ?_⟩
  rw [lines i] at member
  simp only [List.cons_append, List.mem_cons, List.mem_append, List.not_mem_nil, or_false] at member
  rcases member with rfl | member | rfl
  · rfl
  · exact plain.printable c member
  · rfl

/-- A text that needs no quotes comes back without them. -/
theorem returns_text {s : String} (bare : Form.of s = .plain) (height : Nat) :
    Returns height (.text s) (.plain s) := by
  have lines (i : Nat) : valueLines i (.text s) = ' ' :: s.toList ++ ['\n'] := by
    simp [valueLines, scalarLines, textLines, bare]
  have found := returns_plain (of_form_plain bare).2 lines height
  rwa [String.ofList_toList] at found

/-- A field whose value comes back. -/
def FieldReturns (height : Nat) (field again : String × Tree) : Prop :=
  again.1 = field.1 ∧ IsKey field.1 ∧ Returns height field.2 again.2

theorem fieldReturns_text {name s : String} (key : IsKey name) (bare : Form.of s = .plain)
    (height : Nat) : FieldReturns height (name, .text s) (name, .plain s) :=
  ⟨rfl, key, returns_text bare height⟩

theorem printable_entry {rest : List Char} (key : IsKey name)
    (value : ∀ c ∈ valueLines k x, isPrintable c = true)
    (others : ∀ c ∈ rest, isPrintable c = true) :
    ∀ c ∈ spaces k ++ entry k name x rest, isPrintable c = true := by
  simp only [entry, List.mem_append, List.mem_cons]
  rintro c (blank | member | rfl | member | member)
  · rw [List.eq_of_mem_replicate blank]
    rfl
  · exact key.isPlain.printable c member
  · rfl
  · exact value c member
  · exact others c member

/-- The tokens of the fields of a record. -/
theorem exists_fieldTokens {fields again : List (String × Tree)}
    (each : List.Forall₂ (FieldReturns height) fields again) :
    ∃ tokens, (∀ k, CutsFields k (mapping .text fields) tokens) ∧
      DescribesFields height tokens (mapping .plain again) ∧
        ∀ k, ∀ c ∈ fieldsLines k (mapping .text fields), isPrintable c = true := by
  induction each with
  | nil => exact ⟨[], fun _ => cutsFields_nil, describesFields_nil, fun _ _ none => nomatch none⟩
  | @cons field again fields others returns _ ih =>
    obtain ⟨same, key, tokens, cuts, describes, printable⟩ := returns
    obtain ⟨tokens', cuts', describes', printable'⟩ := ih
    refine ⟨fieldTokens field.1 tokens ++ tokens', fun k => cutsFields_cons key (cuts k) (cuts' k),
      ?_, fun k => ?_⟩
    · rw [mapping, List.map_cons, same]
      exact describesFields_cons _ describes describes'
    · rw [mapping, List.map_cons, fieldsLines_cons key]
      exact printable_entry key (printable k) (printable' k)

/-- A record comes back if its values do. -/
theorem returns_record {fields again : List (String × Tree)}
    (each : List.Forall₂ (FieldReturns height) fields again) (some : fields ≠ []) :
    Returns (height + 1) (.record fields) (.map (mapping .plain again)) := by
  cases each with
  | nil => exact absurd rfl some
  | @cons field again fields others returns each =>
    obtain ⟨same, key, tokens, cuts, describes, printable⟩ := returns
    obtain ⟨tokens', cuts', describes', printable'⟩ := exists_fieldTokens each
    refine ⟨_, fun i => cuts_mapping key (cuts (i + 2)) (cuts' (i + 2)), ?_, fun i c member => ?_⟩
    · rw [mapping, List.map_cons, same]
      exact describes_mapping (describesFields_cons _ describes describes')
    · have lines : valueLines i (.record (field :: fields)) = _ := valueLines_map key
      rw [lines] at member
      rcases List.mem_cons.mp member with rfl | member
      · rfl
      · exact printable_entry key (printable _) (printable' _) c member

/-! ## Whole texts -/

theorem isAllowed_of_isPrintable {c : Char} (printable : isPrintable c = true) :
    isAllowed c = true := by
  simp only [isPrintable, Bool.or_eq_true, beq_iff_eq, decide_eq_true_eq] at printable
  simp only [isAllowed, Bool.or_eq_true, beq_iff_eq, decide_eq_true_eq]
  rcases printable with (rfl | usual) | beyond
  · decide
  · omega
  · omega

theorem plainBreaks_of_isPrintable {cs : List Char} (printable : ∀ c ∈ cs, isPrintable c = true) :
    plainBreaks cs = cs := by
  induction cs with
  | nil => rfl
  | cons c cs ih =>
    have here := printable c (List.mem_cons_self ..)
    have return' : c ≠ '\r' := by
      rintro rfl
      exact absurd here (by decide)
    have nextLine : c ≠ '\u0085' := by
      rintro rfl
      exact absurd here (by decide)
    rw [plainBreaks]
    · rw [ih fun d member => printable d (List.mem_cons_of_mem _ member)]
      simp [return', nextLine]
    · exact fun _ same _ => absurd same return'

/-- The end of a text ends the block that it is in. -/
theorem run_nil {fuel : Nat} :
    run (fuel + 1) (between true before [0] ⟨line, 0, []⟩) =
      some (between true (.closeBlock :: before) [] ⟨line, 0, []⟩) := by
  have gap : (between true before [0] ⟨line, 0, []⟩).advance =
      some (between true before [0] ⟨line, 0, []⟩) :=
    advance_begins nofun (by rintro _ ⟨⟩; exact Nat.le_refl 0)
  rw [run, gap]
  rfl

theorem tokens_record (key : IsKey name) (first : Cuts 0 x ts) (others : CutsFields 0 fs tss)
    (printable : ∀ c ∈ fieldsLines 0 ((.text name, x) :: fs), isPrintable c = true) :
    tokens (render (.map ((.text name, x) :: fs))) =
      some (.openFields :: (fieldTokens name ts ++ tss ++ [.closeBlock])) := by
  have text : (render (.map ((.text name, x) :: fs))).toList =
      fieldsLines 0 ((.text name, x) :: fs) := by
    rw [render, String.toList_ofList]
  have allowed : (fieldsLines 0 ((.text name, x) :: fs)).all isAllowed = true :=
    List.all_eq_true.mpr fun c member => isAllowed_of_isPrintable (printable c member)
  have lines : fieldsLines 0 ((.text name, x) :: fs) =
      entry 0 name x (fieldsLines 0 fs ++ (spaces 0 ++ [])) := by
    rw [fieldsLines_cons key]
    simp [spaces]
  have ends : Begins [] := nofun
  have outermost : ∀ i ∈ ([] : List Nat).head?, i < 0 := nofun
  obtain ⟨line, n, shorter, runs⟩ :=
    leads_mapping key first others (Nat.le_refl 0) ends [] 0 outermost
  unfold tokens
  dsimp only
  rw [text, if_pos allowed, plainBreaks_of_isPrintable printable, lines]
  generalize entry 0 name x (fieldsLines 0 fs ++ (spaces 0 ++ [])) = cs at shorter runs ⊢
  have fuel : cs.length + 1 = cs.length - n + 1 + n := by
    have : n ≤ cs.length := Nat.le_trans (Nat.le_add_left ..) shorter
    omega
  have run : run (cs.length + 1) (start cs) = _ := (fuel ▸ runs _).trans run_nil
  rw [run]
  simp [between]

/-- A block is a document, with nothing behind it. -/
theorem document_openFields {again : Tree} (block : Describes height (.openFields :: ts) again)
    (shallow : height ≤ depthLimit) : document (.openFields :: ts) = some (again, []) := by
  have enough : (Token.openFields :: ts).length + 2 ≤ 4 * (Token.openFields :: ts).length + 8 := by
    omega
  have reads := block.reads enough (show 0 + height ≤ depthLimit by omega) false [] commonHandles []
  rw [List.append_nil] at reads
  unfold document
  dsimp only
  rw [reads]
  rfl

/-- A record that is a whole text is read again. -/
theorem parse_render_record {fields again : List (String × Tree)} {height : Nat}
    (each : List.Forall₂ (FieldReturns height) fields again) (some : fields ≠ [])
    (shallow : height < depthLimit) :
    parse (render (.record fields)) = .some (.map (mapping .plain again)) := by
  cases each with
  | nil => exact absurd rfl some
  | @cons field again fields others returns each =>
    obtain ⟨same, key, ts, cuts, describes, printable⟩ := returns
    obtain ⟨tss, cuts', describes', printable'⟩ := exists_fieldTokens each
    have lines := printable_entry key (printable 0) (printable' 0)
    rw [← fieldsLines_cons key] at lines
    have cut : tokens (render (.record (field :: fields))) = _ :=
      tokens_record key (cuts 0) (cuts' 0) lines
    have block := describes_mapping (describesFields_cons field.1 describes describes')
    rw [parse, cut, Option.bind_some, document_openFields block shallow, ← same]
    rfl

end Yaml

/-- The names of the fields of a record are its keys, however these are written. -/
theorem Tree.asRecord_mapping {write : String → Tree} (names : List String)
    (texts : ∀ s, (write s).asText = some s) (fields : List (String × Tree)) :
    (Tree.map (Yaml.mapping write fields)).asRecord names = some fields := by
  show (Yaml.mapping write fields).mapM _ = some fields
  induction fields with
  | nil => rfl
  | cons field fields ih =>
    rw [Yaml.mapping, List.map_cons, List.mapM_cons]
    simp only [texts, Option.map_some, Option.bind_eq_bind, Option.bind_some]
    rw [← Yaml.mapping, ih]
    rfl

end PlanNetwork
