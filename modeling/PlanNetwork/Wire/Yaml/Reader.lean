/-
# Reading YAML

The tree that the tokens of a text describe. A text holds one document. A value
that is missing is an empty scalar, a sequence below a key need not be indented
further than the key, and in brackets a single pair may stand for a mapping.

An alias stands for the node that its name was given to last. Inside that node
the name stands for something that cannot be read.
-/

import PlanNetwork.Wire.Yaml.Token

namespace PlanNetwork

namespace Yaml

/-- A document that has been read in part. -/
structure Reading where
  /-- The tokens that are left. -/
  tokens : List Token
  /-- What the handles of tags stand for. -/
  handles : List (String × String)
  /-- The nodes with names, the last one in front. -/
  anchors : List (String × Tree)

namespace Reading

/-- The same with only some tokens left. -/
def leaving (r : Reading) (tokens : List Token) : Reading := { r with tokens }

/-- A node with its name. -/
def named (r : Reading) (name : Option String) (node : Tree) : Reading :=
  { r with anchors := (name.map (·, node)).toList ++ r.anchors }

/-- The full text of a tag. -/
def tagText? (r : Reading) (tag : TagText) : Option String :=
  if tag.handle == "" then some tag.rest
  else (r.handles.lookup tag.handle).map (· ++ tag.rest)

end Reading

/-- What a tag asks for. -/
def tagOf (text : String) : Tag :=
  if text == "tag:yaml.org,2002:bool" then .truth
  else if text == "tag:yaml.org,2002:int" then .integer
  else if text == "tag:yaml.org,2002:float" then .float
  else if text == "tag:yaml.org,2002:null" then .nothing
  else match text.toList with
    | '!' :: name => .own (String.ofList name)
    | _ => .other

/-- What stands in front of a node. -/
structure Properties where
  /-- The name of the node. -/
  name : Option String
  /-- The full text of its tag. -/
  tag : Option String

/-- The properties of a node, in either order, and what is behind them. -/
def properties (r : Reading) : Option (Properties × Reading) :=
  match r.tokens with
  | .anchor name :: .tag tag :: rest | .tag tag :: .anchor name :: rest =>
    (r.tagText? tag).map fun text => (⟨some name, some text⟩, r.leaving rest)
  | .anchor name :: rest => some (⟨some name, none⟩, r.leaving rest)
  | .tag tag :: rest => (r.tagText? tag).map fun text => (⟨none, some text⟩, r.leaving rest)
  | _ => some (⟨none, none⟩, r)

/-- A node with its tag. -/
def Properties.apply (p : Properties) (node : Tree) : Tree :=
  match p.tag with
  | none => node
  | some text => .tagged (tagOf text) node

/-- A scalar with its tag. The tag that is a mark alone asks for nothing. -/
def Properties.applyScalar (p : Properties) (scalar : Tree) : Tree :=
  if p.tag == some "!" then scalar else p.apply scalar

/-- How many collections may stand inside each other. -/
def depthLimit : Nat := 128

/-- A collection inside `depth` others. -/
def nested (depth : Nat) (node : Tree) : Tree := if depth < depthLimit then node else .unreadable

/-- The scalar that a missing value is. -/
def missing : Tree := .plain ""

/-- Whether an item or a value is missing in front of a token in a block. -/
def endsBlockItem : List Token → Bool
  | .item :: _ | .closeBlock :: _ => true
  | _ => false

/-- Whether an item is missing in front of a token in a sequence that is not
indented. -/
def endsBareItem : List Token → Bool
  | .item :: _ | .key :: _ | .value :: _ | .closeBlock :: _ => true
  | _ => false

/-- Whether a key or a value is missing in front of a token in a block. -/
def endsBlockField : List Token → Bool
  | .key :: _ | .value :: _ | .closeBlock :: _ => true
  | _ => false

/-- Whether a key is missing in front of a token in braces. -/
def endsFlowKey : List Token → Bool
  | .value :: _ | .comma :: _ | .closeBrace :: _ => true
  | _ => false

/-- Whether a value is missing in front of a token in braces. -/
def endsFlowValue : List Token → Bool
  | .comma :: _ | .closeBrace :: _ => true
  | _ => false

/-- Whether a value is missing in front of a token in a pair in brackets. -/
def endsPairValue : List Token → Bool
  | .comma :: _ | .closeBracket :: _ => true
  | _ => false

mutual

/-- A node inside `depth` collections, and what is behind it; each nested node
costs one of `fuel`. In brackets there are no blocks, and only behind a key a
sequence need not be indented. -/
def node : Nat → (depth : Nat) → (inBlock behindKey : Bool) → Reading → Option (Tree × Reading)
  | 0, _, _, _, _ => none
  | fuel + 1, depth, inBlock, behindKey, r =>
    match r.tokens with
    | .alias name :: rest => (r.anchors.lookup name).map (·, r.leaving rest)
    | _ =>
      (properties r).bind fun (p, r) =>
        let r := r.named p.name .unreadable
        (content fuel depth inBlock behindKey p r).map fun (tree, r) =>
          (tree, r.named p.name tree)

/-- A node behind its properties. -/
def content : Nat → (depth : Nat) → (inBlock behindKey : Bool) → Properties → Reading →
    Option (Tree × Reading)
  | 0, _, _, _, _, _ => none
  | fuel + 1, depth, inBlock, behindKey, p, r =>
    let items := fun (found : Option (List Tree × Reading)) =>
      found.map fun (xs, r) => (p.apply (nested depth (.list xs)), r)
    let fields := fun (found : Option (List (Tree × Tree) × Reading)) =>
      found.map fun (xs, r) => (p.apply (nested depth (.map xs)), r)
    match r.tokens, inBlock, behindKey with
    | .item :: _, _, true => items (bareItems fuel (depth + 1) r)
    | .scalar scalar :: rest, _, _ => some (p.applyScalar scalar, r.leaving rest)
    | .openBracket :: rest, _, _ => items (flowItems fuel (depth + 1) true (r.leaving rest))
    | .openBrace :: rest, _, _ => fields (flowFields fuel (depth + 1) true (r.leaving rest))
    | .openItems :: rest, true, _ => items (blockItems fuel (depth + 1) (r.leaving rest))
    | .openFields :: rest, true, _ => fields (blockFields fuel (depth + 1) (r.leaving rest))
    | _, _, _ => if p.name.isSome || p.tag.isSome then some (p.apply missing, r) else none

/-- The items up to the end of a block. -/
def blockItems : Nat → Nat → Reading → Option (List Tree × Reading)
  | 0, _, _ => none
  | fuel + 1, depth, r =>
    match r.tokens with
    | .closeBlock :: rest => some ([], r.leaving rest)
    | .item :: rest =>
      let found :=
        if endsBlockItem rest then some (missing, r.leaving rest)
        else node fuel depth true false (r.leaving rest)
      found.bind fun (x, r) => (blockItems fuel depth r).map fun (xs, r) => (x :: xs, r)
    | _ => none

/-- The items of a sequence that is not indented. -/
def bareItems : Nat → Nat → Reading → Option (List Tree × Reading)
  | 0, _, _ => none
  | fuel + 1, depth, r =>
    match r.tokens with
    | .item :: rest =>
      let found :=
        if endsBareItem rest then some (missing, r.leaving rest)
        else node fuel depth true false (r.leaving rest)
      found.bind fun (x, r) => (bareItems fuel depth r).map fun (xs, r) => (x :: xs, r)
    | _ => some ([], r)

/-- The fields up to the end of a block. -/
def blockFields : Nat → Nat → Reading → Option (List (Tree × Tree) × Reading)
  | 0, _, _ => none
  | fuel + 1, depth, r =>
    match r.tokens with
    | .closeBlock :: rest => some ([], r.leaving rest)
    | .key :: rest =>
      let key :=
        if endsBlockField rest then some (missing, r.leaving rest)
        else node fuel depth true true (r.leaving rest)
      key.bind fun (key, r) =>
        let value : Option (Tree × Reading) := match r.tokens with
          | .value :: rest =>
            if endsBlockField rest then some (missing, r.leaving rest)
            else node fuel depth true true (r.leaving rest)
          | _ => some (missing, r)
        value.bind fun (value, r) =>
          (blockFields fuel depth r).map fun (xs, r) => ((key, value) :: xs, r)
    | _ => none

/-- The items up to a closing bracket. -/
def flowItems : Nat → Nat → (isFirst : Bool) → Reading → Option (List Tree × Reading)
  | 0, _, _, _ => none
  | fuel + 1, depth, isFirst, r =>
    let rest : Option (List Token) := match isFirst, r.tokens with
      | true, rest => some rest
      | false, .comma :: rest => some rest
      | false, .closeBracket :: rest => some (.closeBracket :: rest)
      | false, _ => none
    match rest with
    | none => none
    | some (.closeBracket :: rest) => some ([], r.leaving rest)
    | some rest =>
      let found : Option (Tree × Reading) := match rest with
        | .key :: rest =>
          (pair fuel (depth + 1) (r.leaving rest)).map fun (field, r) =>
            (nested depth (.map [field]), r)
        | rest => node fuel depth false false (r.leaving rest)
      found.bind fun (x, r) => (flowItems fuel depth false r).map fun (xs, r) => (x :: xs, r)

/-- The key and the value of a pair in brackets. If the key is missing, the
token in its place is passed over. -/
def pair : Nat → Nat → Reading → Option ((Tree × Tree) × Reading)
  | 0, _, _ => none
  | fuel + 1, depth, r =>
    let key : Option (Tree × Reading) := match r.tokens with
      | .value :: rest | .comma :: rest | .closeBracket :: rest => some (missing, r.leaving rest)
      | _ => node fuel depth false false r
    key.bind fun (key, r) =>
      let value : Option (Tree × Reading) := match r.tokens with
        | .value :: rest =>
          if endsPairValue rest then some (missing, r.leaving rest)
          else node fuel depth false false (r.leaving rest)
        | _ => some (missing, r)
      value.map fun (value, r) => ((key, value), r)

/-- The fields up to a closing brace. -/
def flowFields : Nat → Nat → (isFirst : Bool) → Reading → Option (List (Tree × Tree) × Reading)
  | 0, _, _, _ => none
  | fuel + 1, depth, isFirst, r =>
    let rest : Option (List Token) := match isFirst, r.tokens with
      | true, rest => some rest
      | false, .comma :: rest => some rest
      | false, .closeBrace :: rest => some (.closeBrace :: rest)
      | false, _ => none
    match rest with
    | none => none
    | some (.closeBrace :: rest) => some ([], r.leaving rest)
    | some rest =>
      let field : Option ((Tree × Tree) × Reading) := match rest with
        | .key :: rest =>
          let key :=
            if endsFlowKey rest then some (missing, r.leaving rest)
            else node fuel depth false false (r.leaving rest)
          key.bind fun (key, r) =>
            let value : Option (Tree × Reading) := match r.tokens with
              | .value :: rest =>
                if endsFlowValue rest then some (missing, r.leaving rest)
                else node fuel depth false false (r.leaving rest)
              | _ => some (missing, r)
            value.map fun (value, r) => ((key, value), r)
        | rest =>
          (node fuel depth false false (r.leaving rest)).map fun (key, r) => ((key, missing), r)
      field.bind fun (x, r) => (flowFields fuel depth false r).map fun (xs, r) => (x :: xs, r)

end

/-- The directives in front of a document: at most one version, and no handle
twice. What they leave behind begins a document. -/
def directives (handles : List (String × String)) (hasVersion : Bool) :
    List Token → Option (List (String × String) × List Token)
  | .directive (.version major minor) :: rest =>
    if hasVersion || major != 1 || minor != 1 && minor != 2 then none
    else directives handles true rest
  | .directive (.handle name stem) :: rest =>
    if handles.any fun handle => handle.1 == name then none
    else directives (handles ++ [(name, stem)]) hasVersion rest
  | .documentStart :: rest => some (handles, rest)
  | _ => none

/-- The handles that need no directive. -/
def commonHandles : List (String × String) := [("!", "!"), ("!!", "tag:yaml.org,2002:")]

/-- Whether a document has nothing in it. -/
def endsDocument : List Token → Bool
  | [] | .directive _ :: _ | .documentStart :: _ | .documentEnd :: _ => true
  | _ => false

/-- A document, and the tokens behind it. -/
def document (tokens : List Token) : Option (Tree × List Token) :=
  let fuel := 4 * tokens.length + 8
  match tokens with
  | [] => some (.blank, [])
  | .directive _ :: _ | .documentStart :: _ =>
    (directives [] false tokens).bind fun (handles, tokens) =>
      if endsDocument tokens then some (missing, tokens)
      else
        (node fuel 0 true false ⟨tokens, handles ++ commonHandles, []⟩).map fun (tree, r) =>
          (tree, r.tokens)
  | tokens =>
    (node fuel 0 true false ⟨tokens, commonHandles, []⟩).map fun (tree, r) => (tree, r.tokens)

/-- Whether nothing is left but marks behind documents. -/
def isFinished (tokens : List Token) : Bool :=
  tokens.all fun
    | .documentEnd => true
    | _ => false

/-- The tree of a YAML text. -/
def parse (text : String) : Option Tree :=
  ((tokens text).bind document).bind fun (tree, rest) =>
    if isFinished rest then some tree else none

end Yaml

end PlanNetwork
