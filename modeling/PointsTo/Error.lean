import PointsTo.Text.Split

/-!
Causes of failure, and their wording in one place. A configuration fails to be read or to be
resolved against a program; a run fails for its configuration, or because a handler cannot be made.
-/
namespace PointsTo

inductive ConfigError
  | unknownSelector (text : String)
  | unknownAdvanced (text : String)
  | unknownHandler (id : String) (registered : List String)
  | invalidIndex (value method reason : String)
  | unknownType (name : String)
  | missingField (entry field : String)
  | io (path cause : String)
  | yaml (path cause : String)
  | json (path cause : String)
  | inFile (path : String) (source : ConfigError)
  | notFound (path : String)
  | validation (text : String)
  deriving DecidableEq

inductive AnalysisError
  | config (cause : ConfigError)
  | construction (id reason : String)
  | analysis (text : String)
  deriving DecidableEq

namespace ConfigError

def message : ConfigError → String
  | unknownSelector text =>
    "Unknown context sensitivity '" ++ text ++
      "'. Valid values: ci, <k>-call, <k>-cfa, <k>-obj, <k>-type"
  | unknownAdvanced text =>
    "Unknown advanced analysis '" ++ text ++ "'. Valid values: collection, scaler, zipper"
  | unknownHandler id registered =>
    "Unknown plugin '" ++ id ++ "'. Registered plugins: " ++ Text.join ", " registered
  | invalidIndex value method reason =>
    "Invalid index reference '" ++ value ++ "' for " ++ method ++ ": " ++ reason
  | unknownType name => "Unknown type '" ++ name ++ "'"
  | missingField entry field => "Missing field '" ++ field ++ "' in " ++ entry ++ " entry"
  | io path cause => "IO error reading " ++ path ++ ": " ++ cause
  | yaml path cause => "YAML parsing error in " ++ path ++ ": " ++ cause
  | json path cause => "JSON parsing error in " ++ path ++ ": " ++ cause
  | inFile path source => "Invalid entry in " ++ path ++ ": " ++ source.message
  | notFound path => "Configuration path not found: " ++ path
  | validation text => "Validation error: " ++ text

/-- Names the file an error came from; an error of reading a file names it already. -/
def located (path : String) : ConfigError → ConfigError
  | io p c => io p c
  | yaml p c => yaml p c
  | json p c => json p c
  | other => inFile path other

end ConfigError

def AnalysisError.message : AnalysisError → String
  | config cause => "Configuration error: " ++ cause.message
  | construction id reason => "Failed to construct plugin '" ++ id ++ "': " ++ reason
  | analysis text => "Analysis error: " ++ text

end PointsTo
