import PointsTo.Command

/-!
Handlers. The solver tells its handler what it finds, event by event, and the handler answers with
objects and commands. Handlers see the facts but cannot change them; only where the worklist has
run empty may they ask for objects to be taken away.
-/
namespace PointsTo

inductive Event
  | started
  /-- New objects have arrived at a pointer. -/
  | arrived (pointer : PointerId) (delta : ObjSet)
  /-- A method is reachable for the first time, in whatever context. -/
  | methodReached (m : MethodId)
  | stmtReached (site : StmtRef)
  | csMethodReached (m : CsMethodId)
  /-- A call has no target; static calls have no receiver. -/
  | unresolved (receiver : Option CsObjId) (context : ContextId) (site : StmtRef)
  | called (edge : CallEdge)

/-- The answer of a handler: its next state, the objects it made in order, and its commands. -/
structure Reaction (σ : Type u) where
  state : σ
  created : List Obj := []
  commands : List Command := []

/-- The answer at the end of a phase may also ask for removals. -/
structure PhaseReaction (σ : Type u) extends Reaction σ where
  removals : List Removal := []

structure Handlers (σ : Type u) where
  react : Event → Facts → σ → Reaction σ
  /-- The worklist is empty; the number counts the objects already removed at this point. -/
  phaseEnd : Facts → Nat → σ → PhaseReaction σ

namespace Reaction

def map (f : σ → τ) (r : Reaction σ) : Reaction τ := ⟨f r.state, r.created, r.commands⟩

end Reaction

end PointsTo
