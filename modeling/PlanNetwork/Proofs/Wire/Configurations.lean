/-
# Configurations that are written and read again

A configuration comes back from its YAML text as it was. Its names are texts that mean themselves,
whatever they look like: quotes keep what would be read as nothing, a truth value, a number, a
comment or a collection. The tolerance is a word that means this number, be it infinite or next
to nothing. Each label of a loop comes back under its own key, so labels that differ still do, and
what has been valid is valid again.

Texts of several lines are written in another form, of which nothing is said here.
-/

import PlanNetwork.Proofs.Number
import PlanNetwork.Proofs.Wire.Yaml.Numbers
import PlanNetwork.Proofs.Wire.Yaml.Quoted
import PlanNetwork.Wire.Document

namespace PlanNetwork

open Yaml (mapping)

/-! ## Records -/

namespace LoopLabels

/-- The fields of the labels of a loop, with texts written in some way. -/
def fields (l : LoopLabels) (text : String → Tree) : List (String × Tree) :=
  [("prefix", text l.stem), ("run_label", text l.run), ("stop_label", text l.stop)]

theorem toTree_eq (l : LoopLabels) : l.toTree = .record (l.fields .text) := rfl

/-- The labels of a loop are read off the record of their fields. -/
theorem ofTree_fields (l : LoopLabels) {write text : String → Tree}
    (keys : ∀ s, (write s).asText = some s) (texts : ∀ s, (text s).asText = some s) :
    ofTree (.map (mapping write (l.fields text))) = some l := by
  unfold ofTree
  rw [Tree.asRecord_mapping _ keys]
  show (do
    let stem ← (text l.stem).asText
    let run ← (text l.run).asText
    let stop ← (text l.stop).asText
    return ⟨stem, run, stop⟩ : Option LoopLabels) = some l
  rw [texts, texts, texts]
  rfl

end LoopLabels

namespace Config

/-- The names that are up to whoever configures. -/
def texts (c : Config) : List String := [c.programName, c.loop.stem, c.loop.run, c.loop.stop]

/-- The fields of a configuration, with texts, words and other values written in some way. -/
def fields (c : Config) (text word : String → Tree) (truth : Bool → Tree)
    (loop : LoopLabels → Tree) (number : Number → Tree) : List (String × Tree) :=
  [("program_name", text c.programName), ("sequence_mode", word c.mode.text),
    ("no_wait", truth c.noWait), ("loop_choice", loop c.loop),
    ("probability_tolerance", number c.tolerance)]

theorem toTree_eq (c : Config) :
    c.toTree = .record (c.fields .text .text .bool LoopLabels.toTree .number) := rfl

/-- A configuration is read off the record of its fields. -/
theorem ofTree_fields (c : Config) {write text word : String → Tree} {truth : Bool → Tree}
    {loop : LoopLabels → Tree} {number : Number → Tree} (keys : ∀ s, (write s).asText = some s) :
    ofTree (.map (mapping write (c.fields text word truth loop number))) = do
      let programName ← (text c.programName).asText
      let mode ← SequenceMode.ofTree (word c.mode.text)
      let noWait ← (truth c.noWait).asBool
      let loop ← LoopLabels.ofTree (loop c.loop)
      let tolerance ← (number c.tolerance).asNumber
      return { programName, mode, noWait, loop, tolerance } := by
  unfold ofTree
  rw [Tree.asRecord_mapping _ keys]
  rfl

end Config

/-! ## Through YAML -/

namespace Yaml

theorem isKey_setting : ∀ s ∈ ["program_name", "sequence_mode", "no_wait", "loop_choice",
    "probability_tolerance", "prefix", "run_label", "stop_label"], IsKey s := by
  simp only [List.forall_mem_cons, List.not_mem_nil, false_implies, implies_true, and_true]
  exact ⟨⟨rfl, by decide⟩, ⟨rfl, by decide⟩, ⟨rfl, by decide⟩, ⟨rfl, by decide⟩, ⟨rfl, by decide⟩,
    ⟨rfl, by decide⟩, ⟨rfl, by decide⟩, ⟨rfl, by decide⟩⟩

/-- How a truth value comes back. -/
def truthAgain (b : Bool) : Tree := .plain (if b then "true" else "false")

theorem returns_truth (b : Bool) (height : Nat) : Returns height (.bool b) (truthAgain b) := by
  have lines (i : Nat) :
      valueLines i (.bool b) = ' ' :: (if b then "true" else "false").toList ++ ['\n'] := by
    simp [valueLines, scalarLines]
  have plain : IsPlain (if b then "true" else "false").toList := by
    cases b <;> exact ⟨by decide, List.all_eq_true.mp (by decide)⟩
  have found := returns_plain plain lines height
  rwa [String.ofList_toList] at found

/-- How the labels of a loop come back. -/
def labelsAgain (l : LoopLabels) : Tree := .map (mapping .plain (l.fields textAgain))

theorem returns_labels {l : LoopLabels} (lines : ∀ s ∈ [l.stem, l.run, l.stop], '\n' ∉ s.toList) :
    Returns 1 l.toTree (labelsAgain l) := by
  have key := isKey_setting
  have text {s : String} (member : s ∈ [l.stem, l.run, l.stop]) :=
    returns_textAgain (lines s member) 0
  rw [l.toTree_eq]
  refine returns_record ?_ nofun
  exact .cons ⟨rfl, key "prefix" (by decide), text (by simp)⟩
    (.cons ⟨rfl, key "run_label" (by decide), text (by simp)⟩
      (.cons ⟨rfl, key "stop_label" (by decide), text (by simp)⟩ .nil))

/-- What comes back of a configuration. -/
theorem parse_render_config {c : Config} (lines : ∀ s ∈ c.texts, '\n' ∉ s.toList) :
    parse (render c.toTree) = some (.map (mapping .plain
      (c.fields textAgain .plain truthAgain labelsAgain numberAgain))) := by
  have key := isKey_setting
  have mode : Form.of c.mode.text = .plain := by cases c.mode <;> rfl
  obtain ⟨name, labels⟩ := List.forall_mem_cons.mp lines
  have each : List.Forall₂ (FieldReturns 1) (c.fields .text .text .bool LoopLabels.toTree .number)
      (c.fields textAgain .plain truthAgain labelsAgain numberAgain) :=
    .cons ⟨rfl, key "program_name" (by decide), returns_textAgain name 1⟩
      (.cons (fieldReturns_text (key "sequence_mode" (by decide)) mode 1)
        (.cons ⟨rfl, key "no_wait" (by decide), returns_truth c.noWait 1⟩
          (.cons ⟨rfl, key "loop_choice" (by decide), returns_labels labels⟩
            (.cons (fieldReturns_number (key "probability_tolerance" (by decide)) c.tolerance 1)
              .nil))))
  rw [c.toTree_eq]
  exact parse_render_record each nofun (by decide)

end Yaml

namespace Config

/-- A configuration comes back through YAML as it was. -/
theorem ofTree_yaml {c : Config} (lines : ∀ s ∈ c.texts, '\n' ∉ s.toList) :
    (Yaml.parse (Yaml.render c.toTree)).bind ofTree = some c := by
  have mode : SequenceMode.ofTree (.plain c.mode.text) = some c.mode := by
    cases c.mode <;> rfl
  have truth : (Yaml.truthAgain c.noWait).asBool = some c.noWait := by
    cases c.noWait <;> rfl
  have labels : LoopLabels.ofTree (Yaml.labelsAgain c.loop) = some c.loop :=
    c.loop.ofTree_fields (fun _ => rfl) Yaml.asText_textAgain
  have number : (Yaml.numberAgain c.tolerance).asNumber = some c.tolerance :=
    (Yaml.meansNumber_render c.tolerance).wanted
  rw [Yaml.parse_render_config lines, Option.bind_some, c.ofTree_fields fun _ => rfl,
    Yaml.asText_textAgain, mode, truth, labels, number]
  rfl

/-- A configuration is equal to itself if its tolerance is a number. -/
theorem same_self {c : Config} (valid : c.validate = .ok ()) : c.same c = true := by
  obtain ⟨_, b, _, position, _⟩ := Number.lt_iff.mp (validate_eq_ok_iff.mp valid).1
  simp [same, Number.equals_iff.mpr ⟨b, position, position⟩]

/-- A configuration that is valid, with names of one line each, is written as a text that can be
read, and what is read is valid and the same configuration. That the tolerance is a number makes
the two equal, by which the program means that their tolerances are equal as numbers. -/
theorem ofYaml_toYaml {c : Config} (valid : c.validate = .ok ())
    (lines : ∀ s ∈ c.texts, '\n' ∉ s.toList) : ofYaml c.toYaml = .ok c ∧ c.same c = true := by
  refine ⟨?_, same_self valid⟩
  unfold ofYaml toYaml
  rw [ofTree_yaml lines]
  simp only [valid]
  rfl

/-- Names that look like something else: nothing, an item of a list with a comment behind it, a
number, and a mark that cannot be seen. The tolerance is the smallest number above zero. -/
def confusing : Config where
  programName := "~"
  mode := .boundary
  noWait := true
  loop := { stem := "- don\x27t: [x] # ", run := "1e3", stop := "\ufeff\"null\"" }
  tolerance := .ofDecimal false 5 (-324)

theorem ofYaml_toYaml_confusing :
    confusing.validate = .ok () ∧ (∀ s ∈ confusing.texts, '\n' ∉ s.toList) ∧
      ofYaml confusing.toYaml = .ok confusing ∧ confusing.same confusing = true := by
  have valid : confusing.validate = .ok () :=
    validate_eq_ok_iff.mpr ⟨by decide +kernel, by decide⟩
  have lines : ∀ s ∈ confusing.texts, '\n' ∉ s.toList := by decide
  exact ⟨valid, lines, ofYaml_toYaml valid lines⟩

end Config

end PlanNetwork
