import PointsTo.Error
import PointsTo.Text.Decimal

/-!
Names of context sensitivity variants: `ci`, and a bound `k` on the length of contexts together
with the kind of their elements.
-/
namespace PointsTo

inductive ContextSpec
  | insensitive
  | callSite (k : Nat)
  | object (k : Nat)
  | type (k : Nat)
  deriving DecidableEq

namespace ContextSpec

def limit : ContextSpec → Nat
  | insensitive => 0
  | callSite k | object k | type k => k

def name : ContextSpec → String
  | insensitive => "ci"
  | callSite k => toString k ++ "-call"
  | object k => toString k ++ "-obj"
  | type k => toString k ++ "-type"

def ofKind? (k : Nat) (kind : String) : Option ContextSpec :=
  if kind = "call" ∨ kind = "cfa" then some (callSite k)
  else if kind = "obj" then some (object k)
  else if kind = "type" then some (type k)
  else none

def parse? (text : String) : Option ContextSpec :=
  if text = "ci" then some insensitive
  else match Text.splitFirst? '-' text.toList with
    | none => none
    | some (bound, kind) =>
      match Text.unsigned? Text.wordBound bound with
      | none => none
      | some 0 => some insensitive
      | some k => ofKind? k (String.ofList kind)

def parse (text : String) : Except ConfigError ContextSpec :=
  match parse? text with
  | some spec => .ok spec
  | none => .error (.unknownSelector text)

end ContextSpec

end PointsTo
