/-
# Configurations as YAML documents

A configuration is written as a record of its settings. When it is read, settings that
are missing have their defaults, and the ones that are there have to fit together.
-/

import PlanNetwork.Config
import PlanNetwork.Wire.Forms
import PlanNetwork.Wire.Json
import PlanNetwork.Wire.Yaml.Reader
import PlanNetwork.Wire.Yaml.Writer

namespace PlanNetwork

/-! ## Records -/

/-- The word for a mode. -/
def SequenceMode.toTree (m : SequenceMode) : Tree := .text m.text

/-- A mode, from the word for it. -/
def SequenceMode.ofTree : Tree → Option SequenceMode :=
  Tree.asWord (wordsFor SequenceMode.text [.shared, .boundary])

/-- The labels of a loop are a record. -/
def LoopLabels.toTree (l : LoopLabels) : Tree :=
  .record [("prefix", .text l.stem), ("run_label", .text l.run), ("stop_label", .text l.stop)]

/-- The labels of a loop; those that are missing have their defaults. -/
def LoopLabels.ofTree (tree : Tree) : Option LoopLabels := do
  let fields ← tree.asRecord ["prefix", "run_label", "stop_label"]
  let default : LoopLabels := {}
  let stem ← Record.withDefault fields "prefix" default.stem Tree.asText
  let run ← Record.withDefault fields "run_label" default.run Tree.asText
  let stop ← Record.withDefault fields "stop_label" default.stop Tree.asText
  return { stem, run, stop }

/-- A configuration is a record. -/
def Config.toTree (c : Config) : Tree :=
  .record [("program_name", .text c.programName), ("sequence_mode", c.mode.toTree),
    ("no_wait", .bool c.noWait), ("loop_choice", c.loop.toTree),
    ("probability_tolerance", .number c.tolerance)]

/-- A configuration; settings that are missing have their defaults. -/
def Config.ofTree (tree : Tree) : Option Config := do
  let fields ← tree.asRecord
    ["program_name", "sequence_mode", "no_wait", "loop_choice", "probability_tolerance"]
  let default : Config := {}
  let programName ← Record.withDefault fields "program_name" default.programName Tree.asText
  let mode ← Record.withDefault fields "sequence_mode" default.mode SequenceMode.ofTree
  let noWait ← Record.withDefault fields "no_wait" default.noWait Tree.asBool
  let loop ← Record.withDefault fields "loop_choice" default.loop LoopLabels.ofTree
  let tolerance ←
    Record.withDefault fields "probability_tolerance" default.tolerance Tree.asNumber
  return { programName, mode, noWait, loop, tolerance }

/-! ## Documents -/

namespace Config

/-- The valid configuration that a YAML text describes. -/
def ofYaml (text : String) : Except Fault Config :=
  match (Yaml.parse text).bind ofTree with
  | none => .error .configUnreadable
  | some config => config.validate.map fun _ => config

/-- The YAML text of a configuration. -/
def toYaml (c : Config) : String := Yaml.render c.toTree

end Config

end PlanNetwork
