import PointsTo.Document.Json
import PointsTo.Document.Yaml.Node
import PointsTo.FileTree
import PointsTo.Taint.Config
import PointsTo.Text.Blank

/-!
Taint configurations as documents. A document names methods, fields and types by their written
forms; entries about methods and fields that the program does not have are left out, while places
and types that do not exist are faults.
-/
namespace PointsTo

inductive SourceEntry
  | call (method index : String) (ty : Option String)
  | param (method index : String) (ty : Option String)
  | field (field : String) (ty : Option String)

structure SinkEntry where
  method : String
  index : String

structure TransferEntry where
  method : String
  source : String
  target : String
  ty : Option String

structure SanitizerEntry where
  kind : Option String
  method : String
  index : String

structure TaintDocument where
  sources : List SourceEntry := []
  sinks : List SinkEntry := []
  transfers : List TransferEntry := []
  sanitizers : List SanitizerEntry := []
  callSiteMode : Bool := false

/-- An index is written as a number or as a string. -/
def Doc.indexText? (d : Doc) : Option String :=
  match d.typed with
  | .int n => if 0 ≤ n then some (toString n) else none
  | .str s => some s
  | _ => none

/-- The kind of a source entry and the other parts; in a list the kind stands first. -/
def Doc.kinded? : Doc → Option (String × Doc)
  | .map entries =>
    match entries.partition fun (key, _) => key.typed.text? == some "kind" with
    | ([(_, kind)], rest) => kind.text?.map fun kind => (kind, .map rest)
    | _ => none
  | .list (kind :: rest) => kind.text?.map fun kind => (kind, .list rest)
  | .tagged tag d => if isLocalTag tag then none else d.kinded?
  | _ => none

/-- The name under which a part of a source entry stands: a string, or the position of one of the
names. A position without a name is passed over. -/
def Doc.partName? (names : List String) (key : Doc) : Option (Option String) :=
  match key.typed with
  | .str name => some (some name)
  | .int n => if (key.text?.getD "").startsWith "-" then none else some (names[n.toNat]?)
  | _ => none

/-- The parts of a source entry, all of which must be readable. -/
def Doc.sourceFields? (names : List String) (d : Doc) : Option Doc.Fields :=
  if !d.typed.readable then none
  else match d with
    | .map entries => do
      let parts ← entries.mapM fun (key, value) => do
        return (← key.partName? names).map fun name => (name, value.typed)
      Doc.known? names (parts.filterMap id)
    | d => d.typed.fields? true names

/-- A source entry, of which only strings count as texts. -/
def SourceEntry.ofDoc? (d : Doc) : Option SourceEntry :=
  match d.kinded? with
  | none => none
  | some (kind, d) =>
    match kind with
    | "call" => do
      let fs ← d.sourceFields? ["method", "index", "type"]
      return .call (← fs.required? Doc.text? "method") (← fs.required? Doc.indexText? "index")
        (← fs.absent? Doc.text? "type")
    | "param" => do
      let fs ← d.sourceFields? ["method", "index", "type"]
      return .param (← fs.required? Doc.text? "method") (← fs.required? Doc.indexText? "index")
        (← fs.absent? Doc.text? "type")
    | "field" => do
      let fs ← d.sourceFields? ["field", "type"]
      return .field (← fs.required? Doc.text? "field") (← fs.absent? Doc.text? "type")
    | _ => none

def SinkEntry.ofDoc? (positional : Bool) (d : Doc) : Option SinkEntry := do
  let fs ← d.fields? positional ["method", "index"]
  return ⟨← fs.required? Doc.text? "method", ← fs.required? Doc.indexText? "index"⟩

def TransferEntry.ofDoc? (positional : Bool) (d : Doc) : Option TransferEntry := do
  let fs ← d.fields? positional ["method", "from", "to", "type"]
  return ⟨← fs.required? Doc.text? "method", ← fs.required? Doc.indexText? "from",
    ← fs.required? Doc.indexText? "to", ← fs.absent? Doc.text? "type"⟩

def SanitizerEntry.ofDoc? (positional : Bool) (d : Doc) : Option SanitizerEntry := do
  let fs ← d.fields? positional ["kind", "method", "index"]
  return ⟨← fs.absent? Doc.text? "kind", ← fs.required? Doc.text? "method",
    ← fs.required? Doc.indexText? "index"⟩

namespace TaintDocument

/-- Reads a document; `positional` admits lists in place of maps. -/
def ofDoc? (positional : Bool) (d : Doc) : Option TaintDocument := do
  let fs ← d.fields? positional ["sources", "sinks", "transfers", "sanitizers", "call-site-mode"]
  return {
    sources := ← fs.withDefault? (Doc.list? SourceEntry.ofDoc?) "sources" []
    sinks := ← fs.withDefault? (Doc.list? (SinkEntry.ofDoc? positional)) "sinks" []
    transfers := ← fs.withDefault? (Doc.list? (TransferEntry.ofDoc? positional)) "transfers" []
    sanitizers := ← fs.withDefault? (Doc.list? (SanitizerEntry.ofDoc? positional)) "sanitizers" []
    callSiteMode := ← fs.withDefault? Doc.bool? "call-site-mode" false }

/-- Reads a text: JSON if the path says so, else YAML; a blank text is the empty document. -/
def parse (path text : String) : Except ConfigError TaintDocument :=
  if Text.isBlankText text then .ok {}
  else if FileTree.extension? path = some "json" then
    match (Json.parse? text).bind (ofDoc? true) with
    | some doc => .ok doc
    | none => .error (.json path "malformed document")
  else
    match (Yaml.parse? text).bind (ofDoc? false) with
    | some doc => .ok doc
    | none => .error (.yaml path "malformed document")

def entryTy (p : Program) (written : Option String) (default : Ty) : Except ConfigError Ty :=
  match written with
  | none => .ok default
  | some name =>
    match p.tyByName? name with
    | some ty => .ok ty
    | none => .error (.unknownType name)

def resolveSource (p : Program) : SourceEntry → Except ConfigError (Option Source)
  | .call method index ty =>
    match p.methodBySignature? method with
    | none => .ok none
    | some m => do
      let index ← IndexRef.parse p m index
      let ty ← entryTy p ty (index.valueTy p m)
      return some (.call m index ty)
  | .param method index ty =>
    match p.methodBySignature? method with
    | none => .ok none
    | some m => do
      let index ← IndexRef.parse p m index
      let ty ← entryTy p ty (index.valueTy p m)
      return some (.param m index ty)
  | .field field ty =>
    match p.fieldBySignature? field with
    | none => .ok none
    | some f => do
      let declared := match p.fields[f]? with
        | some decl => decl.ty
        | none => .null
      return some (.field f (← entryTy p ty declared))

def resolveSink (p : Program) (e : SinkEntry) : Except ConfigError (Option Sink) :=
  match p.methodBySignature? e.method with
  | none => .ok none
  | some m => do
    return some ⟨m, ← IndexRef.parse p m e.index⟩

def resolveTransfer (p : Program) (e : TransferEntry) : Except ConfigError (Option TaintTransfer) :=
  match p.methodBySignature? e.method with
  | none => .ok none
  | some m => do
    let source ← IndexRef.parse p m e.source
    let target ← IndexRef.parse p m e.target
    return some ⟨m, source, target, ← entryTy p e.ty (target.valueTy p m)⟩

/-- Only sanitizers of parameters are known; other kinds are left out. -/
def resolveSanitizer (p : Program) (e : SanitizerEntry) : Except ConfigError (Option Sanitizer) :=
  if e.kind.any (· ≠ "param") then .ok none
  else match p.methodBySignature? e.method with
    | none => .ok none
    | some m => do
      return some ⟨m, (← IndexRef.parse p m e.index).index⟩

/-- Finds the methods, fields and types of a document in a program; the first fault is reported. -/
def resolve (p : Program) (d : TaintDocument) : Except ConfigError TaintConfig := do
  return {
    sources := (← d.sources.mapM (resolveSource p)).filterMap id
    sinks := (← d.sinks.mapM (resolveSink p)).filterMap id
    transfers := (← d.transfers.mapM (resolveTransfer p)).filterMap id
    sanitizers := (← d.sanitizers.mapM (resolveSanitizer p)).filterMap id
    callSiteMode := d.callSiteMode }

end TaintDocument

namespace TaintConfig

def ofFile (p : Program) (t : FileTree) (path : String) : Except ConfigError TaintConfig := do
  let doc ← TaintDocument.parse path (← t.readText path)
  (doc.resolve p).mapError (ConfigError.located path)

def isConfigPath (path : String) : Bool :=
  [some "yml", some "yaml", some "json"].contains (FileTree.extension? path)

/-- The files of a path: the file itself, or the documents below a directory in order. -/
def filesAt (t : FileTree) (path : String) : Except ConfigError (List String) :=
  match t.filesAt? isConfigPath path with
  | none => .error (.notFound path)
  | some files => .ok files

/-- The configurations of the files of a path, merged in order. -/
def load (p : Program) (t : FileTree) (path : String) : Except ConfigError TaintConfig := do
  (← filesAt t path).foldlM (fun merged file => do return merged.merge (← ofFile p t file)) {}

end TaintConfig

end PointsTo
