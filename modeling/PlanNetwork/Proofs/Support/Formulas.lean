/-
# Formulas are unambiguous

The formula of a support is made of words: labels, values, and the words NOT, AND and OR.
What ends a word is a space, an equals sign or a parenthesis. If labels and values are words
themselves, a formula can be taken apart again from the front. A literal ends at a space or
a closing parenthesis, and behind it stands either another one or the end of its conjunction.
It does not matter that a label may be NOT or a value may be OR, or that both may be empty,
since only a label stands in front of an equals sign.

So two supports with one formula have the same literals in the same places. Only where the
empty conjunction is among the conjunctions are the others not written, and then the formula
says that the support always holds.

Nothing is claimed of the variables beyond what a formula shows. Where labels tell keys apart,
that is enough to tell supports apart.
-/

import Mathlib.Data.List.Forall2
import PlanNetwork.Proofs.Support.Literals

namespace PlanNetwork

/-! ## Words -/

/-- The characters that end a word of a formula. -/
def isFormulaMark (c : Char) : Bool := [' ', '=', '(', ')'].contains c

/-- A text without the characters that end words. It may be empty. -/
def IsFormulaWord (s : String) : Prop := ∀ c ∈ s.toList, isFormulaMark c = false

instance (s : String) : Decidable (IsFormulaWord s) := List.decidableBAll _ s.toList

/-- No word goes on into this text. -/
def EndsFormulaWord (rest : List Char) : Prop := ∃ c cs, rest = c :: cs ∧ isFormulaMark c = true

/-- A word in front of what ends it is told by the whole. -/
theorem IsFormulaWord.append_inj {s t : String} {r r' : List Char} (hs : IsFormulaWord s)
    (ht : IsFormulaWord t) (ends : EndsFormulaWord r) (ends' : EndsFormulaWord r')
    (same : s.toList ++ r = t.toList ++ r') : s = t ∧ r = r' := by
  have first {u : String} {q : List Char} (word : IsFormulaWord u) (ends : EndsFormulaWord q) :
      (u.toList ++ q).takeWhile (!isFormulaMark ·) = u.toList := by
    obtain ⟨c, cs, rfl, mark⟩ := ends
    rw [List.takeWhile_append_of_pos (by simpa [IsFormulaWord] using word)]
    simp [mark]
  have words : s.toList = t.toList := by
    rw [← first hs ends, ← first ht ends', same]
  refine ⟨String.toList_inj.mp words, ?_⟩
  rw [words] at same
  exact List.append_cancel_left same

/-! ## Items with separators -/

section Items

variable {α : Type} {text : α → List Char} {sep : List Char} {known : α → Prop}
  {R : α → α → Prop} {follow : List Char → Prop}

/-- Items behind the first one, each with a separator in front of it. -/
def separated (text : α → List Char) (sep : List Char) (items : List α) : List Char :=
  items.flatMap fun a => sep ++ text a

theorem intercalate_map_cons (text : α → List Char) (sep : List Char) (a : α) (items : List α) :
    sep.intercalate ((a :: items).map text) = text a ++ separated text sep items := by
  induction items generalizing a with
  | nil => simp [separated]
  | cons b rest ih =>
    rw [List.map_cons, List.map_cons, List.intercalate_cons_cons, ← List.map_cons, ih b]
    simp [separated]

/-- An item in front of what may follow it is told by the whole, as far as `R` sees. -/
def Delimited (text : α → List Char) (known : α → Prop) (follow : List Char → Prop)
    (R : α → α → Prop) : Prop :=
  ∀ a b r s, known a → known b → follow r → follow s → text a ++ r = text b ++ s → R a b ∧ r = s

/-- If nothing that is separated looks like the end, then separated items are told by the whole
as well. -/
theorem Delimited.of_separated {stop stop' : List Char} (delimited : Delimited text known follow R)
    (between : ∀ q, follow (sep ++ q)) (atEnd : follow stop) (atEnd' : follow stop')
    (apart : ∀ q, sep ++ q ≠ stop) (apart' : ∀ q, sep ++ q ≠ stop') {l m : List α}
    (hl : ∀ a ∈ l, known a) (hm : ∀ a ∈ m, known a)
    (same : separated text sep l ++ stop = separated text sep m ++ stop') :
    List.Forall₂ R l m ∧ stop = stop' := by
  have follows {items : List α} {stop : List Char} (atEnd : follow stop) :
      follow (separated text sep items ++ stop) := by
    cases items with
    | nil => exact atEnd
    | cons => simpa [separated, List.append_assoc] using between _
  induction l generalizing m with
  | nil =>
    cases m with
    | nil => exact ⟨.nil, same⟩
    | cons b m =>
      refine absurd same.symm ?_
      simpa [separated, List.append_assoc] using apart _
  | cons a l ih =>
    cases m with
    | nil =>
      refine absurd same ?_
      simpa [separated, List.append_assoc] using apart' _
    | cons b m =>
      obtain ⟨ha, hl⟩ := List.forall_mem_cons.mp hl
      obtain ⟨hb, hm⟩ := List.forall_mem_cons.mp hm
      simp only [separated, List.flatMap_cons, List.append_assoc,
        List.append_cancel_left_eq] at same
      obtain ⟨equal, rest⟩ := delimited a b _ _ ha hb (follows atEnd) (follows atEnd') same
      obtain ⟨others, stops⟩ := ih hl hm rest
      exact ⟨.cons equal others, stops⟩

/-- Items of which there is at least one are told by their text with separators. -/
theorem Delimited.of_intercalate {stop stop' : List Char}
    (delimited : Delimited text known follow R)
    (between : ∀ q, follow (sep ++ q)) (atEnd : follow stop) (atEnd' : follow stop')
    (apart : ∀ q, sep ++ q ≠ stop) (apart' : ∀ q, sep ++ q ≠ stop') {l m : List α}
    (hl : ∀ a ∈ l, known a) (hm : ∀ a ∈ m, known a) (nonempty : l ≠ []) (nonempty' : m ≠ [])
    (same : sep.intercalate (l.map text) ++ stop = sep.intercalate (m.map text) ++ stop') :
    List.Forall₂ R l m ∧ stop = stop' := by
  -- with a separator in front of all, the first item is no exception
  have all {items : List α} (nonempty : items ≠ []) :
      sep ++ sep.intercalate (items.map text) = separated text sep items := by
    obtain ⟨a, rest, rfl⟩ := List.exists_cons_of_ne_nil nonempty
    rw [intercalate_map_cons]
    simp [separated]
  apply delimited.of_separated between atEnd atEnd' apart apart' hl hm
  rw [← all nonempty, ← all nonempty', List.append_assoc, same, List.append_assoc]

end Items

theorem compare_eq_of_forall₂ {α : Type} [Ord α] {l m : List α}
    (equal : List.Forall₂ (fun a b => compare a b = .eq) l m) : compare l m = .eq := by
  induction equal with
  | nil => rfl
  | cons first _ ih => rw [List.compare_cons_cons, first, ih]; rfl

/-! ## Literals -/

namespace Literal

/-- Label and value are words. -/
def IsLegible (a : Literal) : Prop := IsFormulaWord a.choice.label ∧ IsFormulaWord a.value

/-- In these literals labels and values are words, and different keys have different
labels. -/
structure Legible (known : Literal → Prop) : Prop where
  /-- Labels and values are words. -/
  words : ∀ a, known a → a.IsLegible
  /-- Different keys have different labels. -/
  labels : ∀ a b, known a → known b → a.choice.key ≠ b.choice.key →
    a.choice.label ≠ b.choice.label

theorem toList_text (a : Literal) :
    a.text.toList = (if a.negated then "NOT".toList ++ [' '] else []) ++
      (a.choice.label.toList ++ '=' :: a.value.toList) := by
  cases negated : a.negated <;> simp [text, negated, String.toList_append]

variable {known : Literal → Prop}

/-- A literal in front of what ends a word is told by the whole. -/
theorem Legible.delimited (legible : Legible known) :
    Delimited (text · |>.toList) known EndsFormulaWord (fun a b => compare a b = .eq) := by
  intro a b r s ha hb hr hs same
  obtain ⟨label, value⟩ := legible.words a ha
  obtain ⟨label', value'⟩ := legible.words b hb
  have word : IsFormulaWord "NOT" := by decide
  have equals (q : List Char) : EndsFormulaWord ('=' :: q) := ⟨'=', q, rfl, rfl⟩
  have space (q : List Char) : EndsFormulaWord (' ' :: q) := ⟨' ', q, rfl, rfl⟩
  have assigned (same : a.choice.label.toList ++ '=' :: (a.value.toList ++ r) =
      b.choice.label.toList ++ '=' :: (b.value.toList ++ s)) :
      a.choice.key = b.choice.key ∧ a.value = b.value ∧ r = s := by
    obtain ⟨labels, rest⟩ := label.append_inj label' (equals _) (equals _) same
    obtain ⟨values, rest⟩ := value.append_inj value' hr hs (List.cons.inj rest).2
    exact ⟨not_imp_not.mp (legible.labels a b ha hb) labels, values, rest⟩
  simp only [toList_text, List.append_assoc, List.cons_append] at same
  show compare a b = .eq ∧ r = s
  rw [compare_eq_iff]
  cases signA : a.negated <;> cases signB : b.negated <;>
    simp only [signA, signB, if_true, Bool.false_eq_true, if_false, List.nil_append,
      List.append_assoc, List.cons_append, List.append_cancel_left_eq, List.cons.injEq,
      true_and] at same
  case false.false | true.true =>
    obtain ⟨key, values, rest⟩ := assigned same
    exact ⟨⟨key, values, rfl⟩, rest⟩
  case false.true =>
    -- the label would be NOT, but the one is in front of an equals sign, the other of a space
    obtain ⟨_, rest⟩ := label.append_inj word (equals _) (space _) same
    cases rest
  case true.false =>
    obtain ⟨_, rest⟩ := word.append_inj label' (space _) (equals _) same
    cases rest

end Literal

/-! ## Conjunctions -/

namespace Conjunction

variable {known : Literal → Prop}

theorem toList_text {c : Conjunction} (nonempty : c.toList ≠ []) :
    c.text.toList =
      '(' :: (" AND ".toList.intercalate (c.toList.map (·.text.toList)) ++ [')']) := by
  have full : c.literals.isEmpty = false := by simpa [OrdSet.isEmpty, toList] using nonempty
  simp [text, full, String.toList_append, String.toList_intercalate, Function.comp_def]

/-- A conjunction of known literals that is not empty. -/
def Spoken (known : Literal → Prop) (c : Conjunction) : Prop :=
  c.toList ≠ [] ∧ ∀ a ∈ c.toList, known a

/-- A conjunction in front of anything at all is told by the whole. -/
theorem delimited (legible : Literal.Legible known) :
    Delimited (text · |>.toList) (Spoken known) (fun _ => True)
      (fun c d => compare c d = .eq) := by
  intro c d r s ⟨nonempty, hc⟩ ⟨nonempty', hd⟩ _ _ same
  have between (q : List Char) : EndsFormulaWord (" AND ".toList ++ q) :=
    ⟨' ', "AND ".toList ++ q, by simp, by decide⟩
  have closed (q : List Char) : EndsFormulaWord (')' :: q) := ⟨')', q, rfl, by decide⟩
  have apart (q rest : List Char) : " AND ".toList ++ q ≠ ')' :: rest := by simp
  simp only [toList_text nonempty, toList_text nonempty', List.cons_append, List.append_assoc,
    List.nil_append, List.cons.injEq, true_and] at same
  obtain ⟨literals, rest⟩ := legible.delimited.of_intercalate between (closed r) (closed s)
    (apart · r) (apart · s) hc hd nonempty nonempty' same
  exact ⟨compare_eq_of_forall₂ literals, (List.cons.inj rest).2⟩

end Conjunction

/-! ## Supports -/

namespace Support

variable {known : Literal → Prop} {s t : Support}

/-- Where the empty conjunction is not among the conjunctions, all of them have literals. -/
theorem Only.spoken (only : s.Only known) (conditioned : s.isAlways = false) :
    ∀ c ∈ s.toList, c.Spoken known := by
  intro c member
  refine ⟨fun none => ?_, only c member⟩
  have always : s.isAlways = true := by
    refine List.any_eq_true.mpr ⟨c, member, ?_⟩
    show (compare [] c.toList == .eq) = true
    rw [none]
    rfl
  rw [conditioned] at always
  cases always

/-- The formula of a support that neither always nor never holds. -/
theorem toList_text (conditioned : s.isAlways = false) (nonempty : s.toList ≠ []) :
    s.text.toList = " OR ".toList.intercalate (s.toList.map (·.text.toList)) := by
  have full : s.isEmpty = false := by simpa [isEmpty, OrdSet.isEmpty, toList] using nonempty
  simp [text, conditioned, full, String.toList_intercalate, Function.comp_def]

/-- Such a formula begins with a parenthesis. -/
theorem Only.exists_text (only : s.Only known) (conditioned : s.isAlways = false)
    (nonempty : s.toList ≠ []) : ∃ rest, s.text.toList = '(' :: rest := by
  obtain ⟨c, others, conjunctions⟩ := List.exists_cons_of_ne_nil nonempty
  have spoken := only.spoken conditioned c (conjunctions ▸ List.mem_cons_self ..)
  rw [toList_text conditioned nonempty, conjunctions, intercalate_map_cons,
    Conjunction.toList_text spoken.1]
  exact ⟨_, rfl⟩

theorem text_of_isAlways (always : s.isAlways = true) : s.text = "true" := if_pos always

theorem text_of_toList_eq_nil (none : s.toList = []) : s.text = "false" := by
  have empty : s.isEmpty = true := by simpa [isEmpty, OrdSet.isEmpty, toList] using none
  have conditioned : s.isAlways = false := by
    show s.toList.any _ = false
    rw [none]
    rfl
  simp [text, conditioned, empty]

/-- The three kinds of formulas: the one of what always holds, the one of what never does, and
those that begin with a parenthesis. -/
theorem Only.text_cases (only : s.Only known) :
    s.isAlways = true ∧ s.text = "true" ∨ s.toList = [] ∧ s.text = "false" ∨
      s.isAlways = false ∧ s.toList ≠ [] ∧ ∃ rest, s.text.toList = '(' :: rest := by
  cases always : s.isAlways with
  | true => exact .inl ⟨rfl, text_of_isAlways always⟩
  | false =>
    by_cases none : s.toList = []
    · exact .inr (.inl ⟨none, text_of_toList_eq_nil none⟩)
    · exact .inr (.inr ⟨rfl, none, only.exists_text always none⟩)

/-- The formula of a support is unambiguous. Let labels and values be words, and let different
keys have different labels, in all literals of two supports. If the supports have one formula,
then both have the empty conjunction among their conjunctions, or they have the same
conjunctions. -/
theorem formula_is_unambiguous (legible : Literal.Legible known) (hs : s.Only known)
    (ht : t.Only known) (same : s.text = t.text) :
    s.isAlways = true ∧ t.isAlways = true ∨ s.same t = true := by
  rcases hs.text_cases with ⟨always, text⟩ | ⟨none, text⟩ | ⟨conditioned, nonempty, rest, text⟩ <;>
    rcases ht.text_cases with ⟨always', text'⟩ | ⟨none', text'⟩ |
      ⟨conditioned', nonempty', rest', text'⟩
  -- both formulas are of one kind
  case inl.inl => exact .inl ⟨always, always'⟩
  case inr.inl.inr.inl =>
    refine .inr (beq_iff_eq.mpr ?_)
    show compare s.toList t.toList = .eq
    rw [none, none']
    rfl
  case inr.inr.inr.inr =>
    have formulas := congrArg String.toList same
    rw [toList_text conditioned nonempty, toList_text conditioned' nonempty'] at formulas
    have apart (q : List Char) : " OR ".toList ++ q ≠ [] := by simp
    obtain ⟨conjunctions, _⟩ := (Conjunction.delimited legible).of_intercalate
      (fun _ => trivial) trivial trivial apart apart
      (hs.spoken conditioned) (ht.spoken conditioned') nonempty nonempty' (by simpa using formulas)
    exact .inr (beq_iff_eq.mpr (compare_eq_of_forall₂ conjunctions))
  -- of different kinds they begin differently
  all_goals
    have formulas := congrArg String.toList same
    simp [text, text'] at formulas

/-- Labels and values may look like the words in between, or be empty. Here two choices are
called NOT and AND, and a third one has no label at all. The same supports may have been made
from other handles to the choices, which a formula does not show. -/
theorem formula_is_unambiguous_keywords :
    let x : ChoiceVariable := ⟨1, "NOT", .controllable, ["true", "OR"]⟩
    let y : ChoiceVariable := ⟨2, "AND", .uncontrollable, ["", "NOT"]⟩
    let z : ChoiceVariable := ⟨3, "", .probabilistic, ["", "false"]⟩
    let x' : ChoiceVariable := ⟨1, "NOT", .probabilistic, []⟩
    let known (a : Literal) : Prop := (a.choice = x ∨ a.choice = y ∨ a.choice = z ∨
      a.choice = x') ∧ a.value ∈ ["", "OR", "NOT"]
    let s : Support := .ofList [.ofList [.isNot x "OR", .is y ""], .single (.isNot z "")]
    let t : Support := .ofList [.single (.isNot z ""), .ofList [.is y "", .isNot x' "OR"]]
    (Literal.Legible known ∧ s.Only known ∧ t.Only known ∧ s.text = t.text) ∧
      s.text = "(NOT NOT=OR AND AND=) OR (NOT =)" ∧
      (s.isAlways = true ∧ t.isAlways = true ∨ s.same t = true) := by
  intro x y z x' known s t
  have legible : Literal.Legible known := by
    refine ⟨?_, ?_⟩
    · rintro a ⟨choice, value⟩
      have value : IsFormulaWord a.value :=
        (by decide : ∀ value ∈ ["", "OR", "NOT"], IsFormulaWord value) _ value
      rcases choice with choice | choice | choice | choice <;>
        exact ⟨by rw [choice]; decide, value⟩
    · rintro a b ⟨first, _⟩ ⟨second, _⟩
      rcases first with first | first | first | first <;>
        rcases second with second | second | second | second <;> rw [first, second] <;> decide
  have hs : s.Only known := by unfold Only; decide +kernel
  have ht : t.Only known := by unfold Only; decide +kernel
  have same : s.text = t.text := by decide +kernel
  exact ⟨⟨legible, hs, ht, same⟩, by decide +kernel, formula_is_unambiguous legible hs ht same⟩

end Support

end PlanNetwork
