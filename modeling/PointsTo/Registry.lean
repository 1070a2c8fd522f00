import PointsTo.Handlers.Entries
import PointsTo.Handlers.Exceptions
import PointsTo.Handlers.Literals
import PointsTo.Handlers.Natives
import PointsTo.Handlers.Reflection
import PointsTo.Handlers.Script
import PointsTo.Handlers.Taint
import PointsTo.Handlers.Threads
import PointsTo.Handlers.Warnings
import PointsTo.Taint.Document

/-!
The handlers of a run. A chain tells each of its handlers of every event, in order; the registry
makes handlers by identifier.
-/
namespace PointsTo

inductive Handler
  /-- Stands first; it observes nothing that a result shows. -/
  | timer
  | entries (s : Entries)
  | initializers (s : Initialized)
  | threads (s : Threads)
  | natives (s : Natives)
  | exceptions (s : Exceptions)
  | reflection (s : Reflection)
  | taint (s : Taint)
  | nulls (s : LiteralAssigns)
  | numbers (s : LiteralAssigns)
  | script (s : Script)
  | warnings (s : Warnings)

namespace Handler

def id : Handler → String
  | timer => "analysis-timer"
  | entries _ => "entry-point"
  | initializers _ => "class-initializer"
  | threads _ => "thread"
  | natives _ => "native"
  | exceptions _ => "exception"
  | reflection _ => "reflection"
  | taint _ => "taint"
  | nulls _ => "null-handler"
  | numbers _ => "number-literal"
  | script _ => "probe"
  | warnings _ => "result-processor"

def react (p : Program) (e : Event) (facts : Facts) : Handler → Reaction Handler
  | timer => { state := timer }
  | entries s => (s.react p e).map entries
  | initializers s => (s.react p e).map initializers
  | threads s => (s.react facts e).map threads
  | natives s => (s.react p facts e).map natives
  | exceptions s => (s.react p facts e).map exceptions
  | reflection s => (s.react p facts e).map reflection
  | taint s => (s.react p facts e).map taint
  | nulls s => (LiteralAssigns.reactNull p s facts e).map nulls
  | numbers s => (LiteralAssigns.reactNumbers p s facts e).map numbers
  | script s => (s.react facts e).map script
  | warnings s => (s.react p facts e).map warnings

def phaseEnd (facts : Facts) (removed : Nat) : Handler → PhaseReaction Handler
  | script s =>
    let r := s.phaseEnd facts removed
    { r.toReaction.map script with removals := r.removals }
  | h => { state := h }

end Handler

abbrev Chain := List Handler

namespace Chain

def react (p : Program) (e : Event) (facts : Facts) : Chain → Reaction Chain
  | [] => { state := [] }
  | h :: rest =>
    let r := h.react p e facts
    let later := react p e facts rest
    { state := r.state :: later.state
      created := r.created ++ later.created
      commands := r.commands ++ later.commands }

/-- Later handlers see what earlier ones have removed. -/
def phaseEnd (facts : Facts) (removed : Nat) : Chain → PhaseReaction Chain
  | [] => { state := [] }
  | h :: rest =>
    let r := h.phaseEnd facts removed
    let (facts, count) := facts.removeAll r.removals
    let later := phaseEnd facts (removed + count) rest
    { state := r.state :: later.state
      created := r.created ++ later.created
      commands := r.commands ++ later.commands
      removals := r.removals ++ later.removals }

def handlers (p : Program) : Handlers Chain :=
  { react := fun e facts chain => Chain.react p e facts chain
    phaseEnd := fun facts removed chain => Chain.phaseEnd facts removed chain }

def ids (chain : Chain) : List String := chain.map Handler.id

end Chain

abbrev Factory := Except AnalysisError Handler

/-- Factories by identifier, the latest registration first. -/
structure Registry where
  factories : List (String × Factory) := []

namespace Registry

def register (r : Registry) (id : String) (make : Factory) : Registry :=
  ⟨(id, make) :: r.factories⟩

def builtin : Registry :=
  (({} : Registry).register "null-handler" (.ok (.nulls {}))).register "number-literal"
    (.ok (.numbers {}))

/-- The registered identifiers in order, each once. -/
def ids (r : Registry) : List String :=
  (r.factories.map (·.1)).eraseDups.mergeSort (· ≤ ·)

def contains (r : Registry) (id : String) : Bool := r.factories.any fun (other, _) => other == id

def create (r : Registry) (id : String) : Factory :=
  match r.factories.lookup id with
  | some make => make
  | none => .error (.config (.unknownHandler id r.ids))

def taintHandler (p : Program) (o : Options) (files : FileTree) : Except ConfigError Handler := do
  let config ← match o.taintConfig with
    | none => .ok {}
    | some path => TaintConfig.load p files path
  return .taint (Taint.ofConfig { config with
    callSiteMode := config.callSiteMode || o.callSiteMode })

/-- The chain of a run: the built-in handlers, then those of the options; warnings come last. Taint
is read before any other handler is made. -/
def chain (r : Registry) (p : Program) (o : Options) (files : FileTree) :
    Except AnalysisError Chain := do
  let tainting ← if o.taintConfig.isSome then
      match taintHandler p o files with
      | .ok h => pure [h]
      | .error e => throw (AnalysisError.config e)
    else pure []
  let extras ← o.plugins.mapM r.create
  return [.timer, .entries (Entries.ofOptions p o), .initializers {},
      .threads { methods := ThreadMethods.ofProgram p o }, .natives (Natives.ofProgram p),
      .exceptions {}]
    ++ (if o.reflection then [.reflection (Reflection.ofProgram p)] else [])
    ++ tainting ++ extras ++ [.warnings {}]

end Registry

end PointsTo
