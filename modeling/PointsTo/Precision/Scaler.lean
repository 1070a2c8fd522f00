import PointsTo.Result

/-!
A variant for each method within a budget. The cost of a variant is the size of the method's
points-to sets times the number of contexts that the variant would give it; each method gets the
most precise variant that costs at most a threshold, and the threshold is the largest at which the
costs of all methods stay within the budget.
-/
namespace PointsTo

/-- The largest number of a 64-bit word; larger costs count as this. -/
def costLimit : Nat := 1 <<< 64 - 1

def defaultBudget : Nat := 30000000

def scalerVariants : List ContextSpec := [.object 2, .type 2, .type 1, .insensitive]

def Result.receivers (r : Result) (m : MethodId) : List ObjId :=
  match r.program.this? m with
  | some this => r.pointsTo this
  | none => []

def Result.allocatingClass? (r : Result) (o : ObjId) : Option ClassId :=
  ((r.obj? o).bind Obj.container?).bind r.program.ownerOf?

/-- The receivers of the method that allocates an object, or nothing where there are none. -/
def Result.allocators (r : Result) (o : ObjId) : List (Option ObjId) :=
  match ((r.obj? o).bind Obj.container?).elim [] r.receivers with
  | [] => [none]
  | outer => outer.map some

/-- The sum of the sizes of the points-to sets of a method's variables, at least one. -/
def Result.volume (r : Result) (m : MethodId) : Nat :=
  match r.program.body? m with
  | some body => max 1 (body.vars.foldl (fun sum v => sum + (r.pointsTo v).length) 0)
  | none => 1

def Result.contextCounts (r : Result) (m : MethodId) : List Nat :=
  let receivers := r.receivers m
  let pairs := receivers.flatMap fun o => (r.allocators o).map fun a => (o, a)
  [pairs.eraseDups.length,
    (pairs.map fun (o, a) => (r.allocatingClass? o, a.bind r.allocatingClass?)).eraseDups.length,
    (receivers.map r.allocatingClass?).eraseDups.length,
    1]

structure MethodCosts where
  method : MethodId
  costs : List Nat

namespace MethodCosts

def ofMethod (r : Result) (m : MethodId) : MethodCosts :=
  ⟨m, (r.contextCounts m).map fun n => min costLimit (r.volume m * max n 1)⟩

/-- The first variant that costs at most a threshold, or else the last. -/
def choice (c : MethodCosts) (threshold : Nat) : Nat :=
  match c.costs.findIdx? (· ≤ threshold) with
  | some i => i
  | none => scalerVariants.length - 1

def cost (c : MethodCosts) (threshold : Nat) : Nat := c.costs.getD (c.choice threshold) 0

end MethodCosts

def totalCost (costs : List MethodCosts) (threshold : Nat) : Nat :=
  costs.foldl (fun sum c => min costLimit (sum + c.cost threshold)) 0

/-- The largest threshold within the budget, among the costs there are. -/
def scalerThreshold (costs : List MethodCosts) (budget : Nat) : Nat :=
  ((ascending (costs.flatMap (·.costs))).takeWhile fun t => totalCost costs t ≤ budget).getLast?.getD 0

def scalerChoices (r : Result) (budget : Nat) : List (MethodId × ContextSpec) :=
  let costs := r.reachableMethods.map (MethodCosts.ofMethod r)
  let threshold := scalerThreshold costs budget
  costs.map fun c => (c.method, scalerVariants.getD (c.choice threshold) .insensitive)

end PointsTo
