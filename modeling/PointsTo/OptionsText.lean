import PointsTo.Document.Yaml.Node
import PointsTo.FileTree
import PointsTo.Options

/-!
Options as documents.
-/
namespace PointsTo.Options

def fieldNames : List String :=
  ["cs", "advanced", "plugins", "taint-config", "implicit-entries", "reflection",
    "merge-string-objects", "entry-methods", "call-site-mode"]

/-- Reads options; every field has a default, and there are no others. -/
def ofDoc? (positional : Bool) (d : Doc) : Option Options := do
  let fs ← d.onlyFields? positional fieldNames
  let o : Options := {}
  return {
    cs := ← fs.withDefault? Doc.text? "cs" o.cs
    advanced := ← fs.absent? Doc.text? "advanced"
    plugins := ← fs.withDefault? (Doc.list? Doc.text?) "plugins" o.plugins
    taintConfig := ← fs.absent? Doc.text? "taint-config"
    implicitEntries := ← fs.withDefault? Doc.bool? "implicit-entries" o.implicitEntries
    reflection := ← fs.withDefault? Doc.bool? "reflection" o.reflection
    mergeStrings := ← fs.withDefault? Doc.bool? "merge-string-objects" o.mergeStrings
    entryMethods := ← fs.withDefault? (Doc.list? Doc.text?) "entry-methods" o.entryMethods
    callSiteMode := ← fs.withDefault? Doc.bool? "call-site-mode" o.callSiteMode }

def toDoc (o : Options) : Doc :=
  .map [
    (.str "cs", .str o.cs),
    (.str "advanced", o.advanced.elim .null .str),
    (.str "plugins", .list (o.plugins.map .str)),
    (.str "taint-config", o.taintConfig.elim .null .str),
    (.str "implicit-entries", .bool o.implicitEntries),
    (.str "reflection", .bool o.reflection),
    (.str "merge-string-objects", .bool o.mergeStrings),
    (.str "entry-methods", .list (o.entryMethods.map .str)),
    (.str "call-site-mode", .bool o.callSiteMode)]

/-- Reads a text; the path names it in the error. -/
def parseAt (path text : String) : Except ConfigError Options :=
  match (Yaml.parse? text).bind (ofDoc? false) with
  | some o => .ok o
  | none => .error (.yaml path "malformed options")

def parse (text : String) : Except ConfigError Options := parseAt "<inline>" text

def ofFile (t : FileTree) (path : String) : Except ConfigError Options := do
  parseAt path (← t.readText path)

end PointsTo.Options
