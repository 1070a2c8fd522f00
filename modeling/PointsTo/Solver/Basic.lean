import PointsTo.Solver.Rules

/-!
The solver. A step carries out the oldest command; without commands it takes the next work item;
without work it ends a phase, and the run is over when the phase end brings no new work. Whether a
run ends depends on the handler, so a run takes a bound on its steps.
-/
namespace PointsTo.Solver

variable {σ : Type u}

inductive Progress (σ : Type u)
  | running (s : State σ)
  | finished (s : State σ)

def step (cx : Setup σ) (s : State σ) : Progress σ :=
  match s.queue with
  | command :: rest =>
    .running (State.apply { s with
      queue := rest, stats := { s.stats with commands := s.stats.commands + 1 } } cx command)
  | [] =>
    match s.worklist.poll? with
    | some (item, worklist) =>
      let s := { s with
        worklist, stats := { s.stats with iterations := s.stats.iterations + 1 } }
      match item with
      | .call e => .running (s.processCall cx e)
      | .points p set => .running (s.processPoints cx p set)
    | none =>
      let s := s.endPhase cx
      if s.worklist.isEmpty && s.queue.isEmpty then .finished s else .running s

/-- Steps until the run is over; none if the steps do not suffice. -/
def run (cx : Setup σ) : Nat → State σ → Option (State σ)
  | 0, _ => none
  | n + 1, s =>
    match step cx s with
    | .finished s => some s
    | .running s => run cx n s

def start (cx : Setup σ) (heap : Heap) (handler : σ) : State σ :=
  State.notify { heap, handler } cx .started

def solve (cx : Setup σ) (fuel : Nat) (heap : Heap) (handler : σ) : Option (State σ) :=
  run cx fuel (start cx heap handler)

end PointsTo.Solver
