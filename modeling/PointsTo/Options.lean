import PointsTo.Context.Spec

/-!
The options of an analysis, and the faults they can have.
-/
namespace PointsTo

inductive Advanced
  | collection | scaler | zipper
  deriving DecidableEq

def Advanced.parse : String → Except ConfigError Advanced
  | "collection" => .ok .collection
  | "scaler" => .ok .scaler
  | "zipper" => .ok .zipper
  | text => .error (.unknownAdvanced text)

structure Options where
  /-- The context sensitivity, as text. -/
  cs : String := "ci"
  advanced : Option String := none
  /-- Identifiers of handlers to run beside the built-in ones, in order. -/
  plugins : List String := []
  taintConfig : Option String := none
  implicitEntries : Bool := true
  reflection : Bool := false
  mergeStrings : Bool := true
  /-- Signatures of the methods to start from; without any, the main method. -/
  entryMethods : List String := []
  callSiteMode : Bool := false
  deriving DecidableEq

/-- The first item that stands in the list before already. -/
def firstRepeated? : (before items : List String) → Option String
  | _, [] => none
  | before, item :: rest =>
    if before.contains item then some item else firstRepeated? (before ++ [item]) rest

namespace Options

def spec (o : Options) : Except ConfigError ContextSpec := ContextSpec.parse o.cs

def advanced? (o : Options) : Except ConfigError (Option Advanced) :=
  match o.advanced with
  | none => .ok none
  | some text => (Advanced.parse text).map some

/-- Sensitivity, then choice of methods, then repeated handlers: the first fault is reported. -/
def validate (o : Options) : Except ConfigError Unit := do
  let _ ← o.spec
  let _ ← o.advanced?
  match firstRepeated? [] o.plugins with
  | some id => .error (.validation ("plugin '" ++ id ++ "' listed more than once"))
  | none => .ok ()

end Options

end PointsTo
