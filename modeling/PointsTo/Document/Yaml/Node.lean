import PointsTo.Document.Doc
import PointsTo.Document.Yaml.Token

/-!
Documents of YAML texts, from their tokens. A text holds at most one document; a text without any
stands for a plain scalar without text. A name given to a node stands for it further on; inside the
node itself the name stands for nothing that could be read.
-/
namespace PointsTo.Yaml

def nothing : Doc := .plain ""

def ahead (ts : List Token) (which : List Token) : Bool :=
  match ts with
  | [] => true
  | t :: _ => which.contains t

/-- The tokens that are left, the numbers of the named nodes by name, and those that are read. -/
structure Reading where
  tokens : List Token
  names : List (String × Nat) := []
  nodes : List (Nat × Doc) := []

namespace Reading

/-- Names the node that starts here. -/
def name (r : Reading) (anchor : Option String) : Reading :=
  match anchor with
  | some a => { r with names := (a, r.names.length) :: r.names }
  | none => r

/-- Keeps a node under the number that it was given before some of the names. -/
def keep (r : Reading) (anchor : Option String) (number : Nat) (d : Doc) : Reading :=
  if anchor.isSome then { r with nodes := (number, d) :: r.nodes } else r

def named? (r : Reading) (name : String) : Option Doc :=
  (r.names.lookup name).map fun number => (r.nodes.lookup number).getD .unreadable

end Reading

/-- The name and the tag before a node, in any order, and the tokens after them. -/
def properties : List Token → Option String × Option (String × String) × List Token
  | .anchor name :: .tag handle suffix :: rest => (some name, some (handle, suffix), rest)
  | .tag handle suffix :: .anchor name :: rest => (some name, some (handle, suffix), rest)
  | .anchor name :: rest => (some name, none, rest)
  | .tag handle suffix :: rest => (none, some (handle, suffix), rest)
  | ts => (none, none, ts)

/-- What a tag stands for; a tag without handle stands for itself. -/
def tagText? (handles : List (String × String)) : String × String → Option String
  | ("", suffix) => some suffix
  | (handle, suffix) => (handles.lookup handle).map (· ++ suffix)

/-- A scalar in a style after a tag; the exclamation mark alone is no tag. A literal block after the
tag of truth values counts as plain. -/
def scalarDoc (tag : Option String) (style : Style) (text : String) : Doc :=
  let bare : Doc := if style = .plain then .plain text else .str text
  match tag with
  | none | some "!" => bare
  | some tag =>
    let asPlain := tag = Doc.boolTag && style = .literal && (Doc.boolWord? text).isSome
    .tagged tag (if asPlain then .plain text else bare)

def collectionDoc (tag : Option String) (d : Doc) : Doc := tag.elim d (Doc.tagged · d)

mutual

/-- A node and what is left. Block collections stand only in block nodes, and sequences without
indentation only as values. -/
def readNode (handles : List (String × String)) (block unindented : Bool) :
    Nat → Reading → Option (Doc × Reading)
  | 0, _ => none
  | n + 1, r =>
    match r.tokens with
    | .alias name :: rest => (r.named? name).map fun d => (d, { r with tokens := rest })
    | _ =>
      let (anchor, tag, ts) := properties r.tokens
      match tag.mapM (tagText? handles) with
      | none => none
      | some tag =>
        let number := r.names.length
        let r := { r with tokens := ts }.name anchor
        let given := anchor.isSome || tag.isSome
        (readContent handles block unindented given tag n r).map fun (d, r) =>
          (d, r.keep anchor number d)

/-- A node after its name and tag; a node with one of them may be empty. -/
def readContent (handles : List (String × String)) (block unindented given : Bool)
    (tag : Option String) : Nat → Reading → Option (Doc × Reading)
  | 0, _ => none
  | n + 1, r =>
    let collection (read : Option (Doc × Reading)) : Option (Doc × Reading) :=
      read.map fun (d, r) => (collectionDoc tag d, r)
    let items (read : Option (List Doc × Reading)) : Option (Doc × Reading) :=
      collection (read.map fun (ds, r) => (.list ds, r))
    let entries (read : Option (List (Doc × Doc) × Reading)) : Option (Doc × Reading) :=
      collection (read.map fun (es, r) => (.map es, r))
    let empty : Option (Doc × Reading) := if given then some (scalarDoc tag .plain "", r) else none
    match r.tokens with
    | .scalar style text :: rest => some (scalarDoc tag style text, { r with tokens := rest })
    | .flowSequenceStart :: rest => items (readFlowItems handles true n { r with tokens := rest })
    | .flowMappingStart :: rest => entries (readFlowEntries handles true n { r with tokens := rest })
    | .blockSequenceStart :: rest =>
      if block then items (readItems handles n { r with tokens := rest }) else empty
    | .blockMappingStart :: rest =>
      if block then entries (readEntries handles n { r with tokens := rest }) else empty
    | .blockEntry :: _ => if unindented then items (readUnindented handles n r) else empty
    | _ => empty

/-- A node, or nothing where one of some tokens comes next. -/
def readOptional (handles : List (String × String)) (block unindented : Bool) (stops : List Token) :
    Nat → Reading → Option (Doc × Reading)
  | 0, _ => none
  | n + 1, r =>
    if ahead r.tokens stops then some (nothing, r) else readNode handles block unindented n r

def readItems (handles : List (String × String)) : Nat → Reading → Option (List Doc × Reading)
  | 0, _ => none
  | n + 1, r =>
    match r.tokens with
    | .blockEntry :: rest =>
      match readOptional handles true false [.blockEntry, .blockEnd] n { r with tokens := rest } with
      | none => none
      | some (d, r) => (readItems handles n r).map fun (ds, r) => (d :: ds, r)
    | .blockEnd :: rest => some ([], { r with tokens := rest })
    | _ => none

def readUnindented (handles : List (String × String)) : Nat → Reading → Option (List Doc × Reading)
  | 0, _ => none
  | n + 1, r =>
    match r.tokens with
    | .blockEntry :: rest =>
      match readOptional handles true false [.blockEntry, .key, .value, .blockEnd] n
          { r with tokens := rest } with
      | none => none
      | some (d, r) => (readUnindented handles n r).map fun (ds, r) => (d :: ds, r)
    | _ => some ([], r)

def readEntries (handles : List (String × String)) :
    Nat → Reading → Option (List (Doc × Doc) × Reading)
  | 0, _ => none
  | n + 1, r =>
    match r.tokens with
    | .key :: rest =>
      match readOptional handles true true [.key, .value, .blockEnd] n { r with tokens := rest } with
      | none => none
      | some (k, r) =>
        match readValue handles true [.key, .value, .blockEnd] n r with
        | none => none
        | some (v, r) => (readEntries handles n r).map fun (es, r) => ((k, v) :: es, r)
    | .blockEnd :: rest => some ([], { r with tokens := rest })
    | _ => none

/-- The value after a key; without a value token there is none. -/
def readValue (handles : List (String × String)) (block : Bool) (stops : List Token) :
    Nat → Reading → Option (Doc × Reading)
  | 0, _ => none
  | n + 1, r =>
    match r.tokens with
    | .value :: rest => readOptional handles block block stops n { r with tokens := rest }
    | _ => some (nothing, r)

/-- The key of an entry of a flow sequence that is written with a key. Without a key, the token in
its place is passed over, even if it is the end of the sequence. -/
def readPairKey (handles : List (String × String)) : Nat → Reading → Option (Doc × Reading)
  | 0, _ => none
  | n + 1, r =>
    match r.tokens with
    | .value :: rest | .flowEntry :: rest | .flowSequenceEnd :: rest =>
      some (nothing, { r with tokens := rest })
    | _ => readNode handles false false n r

/-- The items of a flow sequence; an entry written as a key with a value is a mapping of its own. -/
def readFlowItems (handles : List (String × String)) (first : Bool) :
    Nat → Reading → Option (List Doc × Reading)
  | 0, _ => none
  | n + 1, r =>
    let ts? := match r.tokens with
      | .flowEntry :: rest => if first then none else some rest
      | .flowSequenceEnd :: _ => some r.tokens
      | _ => if first then some r.tokens else none
    match ts? with
    | none => none
    | some (.flowSequenceEnd :: rest) => some ([], { r with tokens := rest })
    | some (.key :: rest) =>
      match readPairKey handles n { r with tokens := rest } with
      | none => none
      | some (k, r) =>
        match readValue handles false [.flowEntry, .flowSequenceEnd] n r with
        | none => none
        | some (v, r) =>
          (readFlowItems handles false n r).map fun (ds, r) => (.map [(k, v)] :: ds, r)
    | some ts =>
      match readNode handles false false n { r with tokens := ts } with
      | none => none
      | some (d, r) => (readFlowItems handles false n r).map fun (ds, r) => (d :: ds, r)

def readFlowEntries (handles : List (String × String)) (first : Bool) :
    Nat → Reading → Option (List (Doc × Doc) × Reading)
  | 0, _ => none
  | n + 1, r =>
    let ts? := match r.tokens with
      | .flowEntry :: rest => if first then none else some rest
      | .flowMappingEnd :: _ => some r.tokens
      | _ => if first then some r.tokens else none
    match ts? with
    | none => none
    | some (.flowMappingEnd :: rest) => some ([], { r with tokens := rest })
    | some (.key :: rest) =>
      match readOptional handles false false [.value, .flowEntry, .flowMappingEnd] n
          { r with tokens := rest } with
      | none => none
      | some (k, r) =>
        match readValue handles false [.flowEntry, .flowMappingEnd] n r with
        | none => none
        | some (v, r) => (readFlowEntries handles false n r).map fun (es, r) => ((k, v) :: es, r)
    | some ts =>
      match readNode handles false false n { r with tokens := ts } with
      | none => none
      | some (k, r) =>
        (readFlowEntries handles false n r).map fun (es, r) => ((k, nothing) :: es, r)

end

/-- The handles of tags that need no directive. -/
def commonHandles : List (String × String) := [("!", "!"), ("!!", Doc.commonTag "")]

/-- The directives before a document, and the tokens after them. -/
def splitDirectives : List Token → List Directive × List Token
  | .directive d :: rest =>
    let (ds, ts) := splitDirectives rest
    (d :: ds, ts)
  | ts => ([], ts)

/-- What the handles of a document stand for. At most one directive gives the version, which is a
known one, and no two say what a handle stands for. -/
def handles? (ds : List Directive) : Option (List (String × String)) :=
  let versions := ds.filterMap fun
    | .version major minor => some (major, minor)
    | _ => none
  let handles := ds.filterMap fun
    | .handle name stands => some (name, stands)
    | _ => none
  if versions.length ≤ 1 && versions.all [(1, 1), (1, 2)].contains && (handles.map (·.1)).Nodup then
    some (handles ++ commonHandles)
  else none

/-- Whether a document without content ends here. -/
def documentAhead : List Token → Bool
  | [] | .directive _ :: _ | .documentStart :: _ | .documentEnd :: _ => true
  | _ => false

def readDocument (ts : List Token) : Option Doc :=
  let fuel := 5 * ts.length + 5
  let content? : Option (Doc × Reading) := match splitDirectives ts with
    | ([], []) => some (nothing, { tokens := [] })
    | (ds, .documentStart :: rest) =>
      match handles? ds with
      | none => none
      | some handles =>
        if documentAhead rest then some (nothing, { tokens := rest })
        else readNode handles true false fuel { tokens := rest }
    | ([], ts) => readNode commonHandles true false fuel { tokens := ts }
    | _ => none
  match content? with
  | none => none
  | some (d, r) => if r.tokens.all (· == .documentEnd) then some d else none

/-- The depth to which what is read may be nested. -/
def depthLimit : Nat := 128

def parse? (text : String) : Option Doc :=
  ((tokens? text).bind readDocument).map fun d => d.within depthLimit

end PointsTo.Yaml
