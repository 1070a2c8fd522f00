import PointsTo.Precision.Collections
import PointsTo.Precision.Scaler
import PointsTo.Precision.Zipper

/-!
An analysis as the options ask for it. Choosing precision by method may need a run without contexts
before the run itself.
-/
namespace PointsTo

structure Analysis where
  program : Program
  registry : Registry := Registry.builtin
  files : FileTree
  stepLimit : Nat

namespace Analysis

def solve (a : Analysis) (o : Options) (selector : Selector) : Except AnalysisError Result := do
  let chain ← a.registry.chain a.program o a.files
  let setup : Setup Chain := ⟨a.program, selector, Chain.handlers a.program⟩
  match Solver.solve setup a.stepLimit (Heap.ofProgram a.program o.mergeStrings) chain with
  | some s => return ⟨a.program, selector.name, s.toFacts, s.stats, s.handler⟩
  | none => throw (.analysis "the step limit is reached")

def preliminary (a : Analysis) (o : Options) : Except AnalysisError Result :=
  a.solve { o with cs := ContextSpec.insensitive.name, advanced := none, taintConfig := none }
    (.limited .insensitive)

def selector (a : Analysis) (o : Options) (spec : ContextSpec) :
    Option Advanced → Except AnalysisError Selector
  | none => return .limited spec
  | some .collection => return .selective spec (collectionMethods a.program)
  | some .scaler => do
    return .guided (scalerChoices (← a.preliminary o) defaultBudget) .insensitive
  | some .zipper => do
    return .selective spec (zipperMethods (← a.preliminary o))

def run (a : Analysis) (o : Options) : Except AnalysisError Result := do
  o.validate.mapError AnalysisError.config
  let spec ← o.spec.mapError AnalysisError.config
  let advanced ← o.advanced?.mapError AnalysisError.config
  a.solve o (← a.selector o spec advanced)

end Analysis

end PointsTo
