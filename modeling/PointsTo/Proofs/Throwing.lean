import PointsTo.Proofs.Refinement

/-!
Exceptions are a least solution. What is thrown at a statement and what leaves a method are each other's
cause; when a run is over, the handler of exceptions holds the least two families of sets that fit the
result.
-/
namespace PointsTo

/-- An entry of an exception table protects a statement and takes objects of a type. -/
def CatchHandler.Takes (p : Program) (h : CatchHandler) (index : Nat) (ty : Ty) : Prop :=
  h.protects index = true ∧ ∀ caught, h.catchTy = some caught → p.isSubtype ty caught = true

namespace Program

variable {p : Program} {site : StmtRef} {ty : Ty} {h : CatchHandler} {index : Nat}

/-- No entry takes objects of the type that are thrown at the statement. -/
def Passes (p : Program) (site : StmtRef) (ty : Ty) : Prop :=
  ∀ body, p.body? site.method = some body → ∀ h ∈ body.handlers, ¬ h.Takes p site.index ty

/-- The entry is the first that takes objects of the type that are thrown at the statement. -/
def Catches (p : Program) (site : StmtRef) (ty : Ty) (h : CatchHandler) : Prop :=
  ∃ body before after, p.body? site.method = some body ∧ body.handlers = before ++ h :: after ∧
    h.Takes p site.index ty ∧ ∀ g ∈ before, ¬ g.Takes p site.index ty

theorem takes_iff : h.Takes p index ty ↔ (h.protects index && h.catchTy.all (p.isSubtype ty)) = true := by
  simp [CatchHandler.Takes, Option.all_eq_true]

theorem catcher?_of_body {m : MethodId} {body : Body} (code : p.body? m = some body) :
    catcher? p m index ty =
      body.handlers.find? fun h => h.protects index && h.catchTy.all (p.isSubtype ty) := by
  simp only [catcher?, code, Body.handlersOf, List.find?_filter]
  congr 1
  funext h
  cases h.catchTy <;> simp

theorem passes_iff : p.Passes site ty ↔ catcher? p site.method site.index ty = none := by
  cases code : p.body? site.method with
  | none => simp [Passes, catcher?, code]
  | some body =>
    simp only [Passes, code, Option.some.injEq, forall_eq', catcher?_of_body code, List.find?_eq_none,
      takes_iff]

theorem catches_iff : p.Catches site ty h ↔ catcher? p site.method site.index ty = some h := by
  cases code : p.body? site.method with
  | none => simp [Catches, catcher?, code]
  | some body =>
    simp only [Catches, code, catcher?_of_body code, Option.some.injEq, List.find?_eq_some_iff_append,
      takes_iff, Bool.not_eq_true', Bool.not_eq_true]
    constructor
    · rintro ⟨_, before, after, rfl, cut, takes, others⟩
      exact ⟨takes, before, after, cut, others⟩
    · rintro ⟨takes, before, after, cut, others⟩
      exact ⟨body, before, after, rfl, cut, takes, others⟩

end Program

namespace Throwing

variable {p : Program} {holds : Fact → Prop} {thrown : Frame → StmtRef → Item → Prop}
  {escapes : Frame → MethodId → Item → Prop} {c : Frame} {site : StmtRef} {m : MethodId} {i : Item}

/-- Families of sets that have all that they lead to. -/
structure Closed (p : Program) (holds : Fact → Prop) (thrown : Frame → StmtRef → Item → Prop)
    (escapes : Frame → MethodId → Item → Prop) : Prop where
  throws : ∀ c site v i, p.stmt? site = some (.throw v) → holds (.points (.var c v) i) → thrown c site i
  calls : ∀ kind c site call d m i, p.stmt? site = some (.invoke call) →
    holds (.called kind c site d m) → escapes d m i → thrown c site i
  leaves : ∀ c site i, thrown c site i → p.Passes site i.obj.ty → escapes c site.method i

/-- Families of sets that have all that they lead to and nothing without a cause: a throw statement throws
what its operand points to, a call what leaves its callees, and a method is left by what none of its entries
takes. -/
structure Solution (p : Program) (holds : Fact → Prop) (thrown : Frame → StmtRef → Item → Prop)
    (escapes : Frame → MethodId → Item → Prop) : Prop where
  throws : ∀ c site v i, p.stmt? site = some (.throw v) →
    (thrown c site i ↔ holds (.points (.var c v) i))
  calls : ∀ c site call i, p.stmt? site = some (.invoke call) →
    (thrown c site i ↔ ∃ kind d m, holds (.called kind c site d m) ∧ escapes d m i)
  only : ∀ c site i, thrown c site i →
    (∃ v, p.stmt? site = some (.throw v)) ∨ ∃ call, p.stmt? site = some (.invoke call)
  leaves : ∀ c m i, escapes c m i ↔ ∃ site : StmtRef, site.method = m ∧ thrown c site i ∧
    p.Passes site i.obj.ty

theorem Solution.closed (solution : Solution p holds thrown escapes) : Closed p holds thrown escapes where
  throws c site v i stmt points := (solution.throws c site v i stmt).mpr points
  calls kind c site call d m i stmt called left :=
    (solution.calls c site call i stmt).mpr ⟨kind, d, m, called, left⟩
  leaves c site i there free := (solution.leaves c site.method i).mpr ⟨site, rfl, there, free⟩

/-- Calls are made by call statements. -/
def ByCalls (p : Program) (holds : Fact → Prop) : Prop :=
  ∀ kind c site d m, holds (.called kind c site d m) → ∃ call, p.stmt? site = some (.invoke call)

theorem thrown_least (calls : ByCalls p holds) (closed : Closed p holds thrown escapes)
    (there : Thrown p holds c site i) : thrown c site i := by
  induction there with
  | here stmt points => exact closed.throws _ _ _ _ stmt points
  | through _ free called ih =>
    obtain ⟨call, stmt⟩ := calls _ _ _ _ _ called
    exact closed.calls _ _ _ call _ _ _ stmt called (closed.leaves _ _ _ ih (Program.passes_iff.mpr free))

theorem escapes_least (calls : ByCalls p holds) (closed : Closed p holds thrown escapes)
    (left : Exceptions.Escapes p holds c m i) : escapes c m i := by
  obtain ⟨site, rfl, there, free⟩ := left
  exact closed.leaves c site i (thrown_least calls closed there) (Program.passes_iff.mpr free)

theorem solution (calls : ByCalls p holds) :
    Solution p holds (Thrown p holds) (Exceptions.Escapes p holds) where
  throws := by
    intro c site v i stmt
    constructor
    · intro there
      cases there with
      | here stmt' points =>
        cases stmt.symm.trans stmt'
        exact points
      | through _ _ called =>
        obtain ⟨call, stmt'⟩ := calls _ _ _ _ _ called
        cases stmt.symm.trans stmt'
    · exact fun points => .here stmt points
  calls := by
    intro c site call i stmt
    constructor
    · intro there
      cases there with
      | here stmt' _ => cases stmt.symm.trans stmt'
      | through inner free called => exact ⟨_, _, _, called, _, rfl, inner, free⟩
    · rintro ⟨kind, d, _, called, inner, rfl, there, free⟩
      exact .through there free called
  only := by
    intro c site i there
    cases there with
    | here stmt _ => exact Or.inl ⟨_, stmt⟩
    | through _ _ called => exact Or.inr (calls _ _ _ _ _ called)
  leaves := by
    intro c m i
    constructor
    · rintro ⟨site, rfl, there, free⟩
      exact ⟨site, rfl, there, Program.passes_iff.mpr free⟩
    · rintro ⟨site, rfl, there, free⟩
      exact ⟨site, rfl, there, Program.passes_iff.mp free⟩

end Throwing

namespace Exceptions

variable {s : Exceptions} {f : Facts} {p : Program} {o : ObjId} {i : Item} {site : StmtRef} {m : MethodId}
  {c : Frame}

def ThrownAt (s : Exceptions) (f : Facts) (c : Frame) (site : StmtRef) (i : Item) : Prop :=
  ∃ id o, f.MethodOf id c site.method ∧ f.ItemOf o i ∧ (id, site, o) ∈ s.thrown

def EscapedFrom (s : Exceptions) (f : Facts) (c : Frame) (m : MethodId) (i : Item) : Prop :=
  ∃ id o, f.MethodOf id c m ∧ f.ItemOf o i ∧ (id, o) ∈ s.uncaught

/-- All that the handler holds can be told by names. -/
structure Spelled (f : Facts) (s : Exceptions) : Prop where
  thrown : ∀ x ∈ s.thrown, ∃ c i, f.MethodOf x.1 c x.2.1.method ∧ f.ItemOf x.2.2 i
  uncaught : ∀ x ∈ s.uncaught, ∃ c m i, f.MethodOf x.1 c m ∧ f.ItemOf x.2 i

/-- What the handler holds when all is over, and what it answers without contexts. -/
structure Exact (p : Program) (f : Facts) (s : Exceptions) : Prop extends s.Spelled f where
  solution : Throwing.Solution p f.Found (s.ThrownAt f) (s.EscapedFrom f)
  least : ∀ thrown escapes, Throwing.Closed p f.Found thrown escapes →
    (∀ c site i, s.ThrownAt f c site i → thrown c site i) ∧
      ∀ c m i, s.EscapedFrom f c m i → escapes c m i
  lands : ∀ c site i, s.ThrownAt f c site i → p.Passes site i.obj.ty ∨
    ∃ h, p.Catches site i.obj.ty h ∧ f.Found (.points (.var c h.var) i)
  thrownAt : ∀ site o, o ∈ s.thrownAt f site ↔
    ∃ c i, s.ThrownAt f c site i ∧ f.heap.get? o = some i.obj
  uncaughtOf : ∀ m o, o ∈ s.uncaughtOf f m ↔
    ∃ c i, s.EscapedFrom f c m i ∧ f.heap.get? o = some i.obj

theorem mem_objsBehind {os : List CsObjId} :
    o ∈ objsBehind f os ↔ ∃ x ∈ os, ∃ c, f.elements.obj? x = some (c, o) := by
  refine Iff.trans ObjSet.mem_ofList ?_
  simp [List.mem_filterMap]

theorem obj?_of_itemOf {x : CsObjId} (item : f.ItemOf x i) :
    (∃ c, f.elements.obj? x = some (c, o)) ↔ f.heap.get? o = some i.obj := by
  obtain ⟨context, described, _⟩ := item
  obtain ⟨id, entry, found⟩ := Facts.describe?_eq_some.mp described
  constructor
  · rintro ⟨c, known⟩
    cases entry.symm.trans known
    exact found
  · intro known
    obtain rfl := Table.get?_inj found known
    exact ⟨_, entry⟩

theorem Spelled.mem_thrownAt (spelled : s.Spelled f) :
    o ∈ s.thrownAt f site ↔ ∃ c i, s.ThrownAt f c site i ∧ f.heap.get? o = some i.obj := by
  rw [Exceptions.thrownAt, mem_objsBehind]
  constructor
  · rintro ⟨x, listed, known⟩
    obtain ⟨⟨id, site', x'⟩, there, picked⟩ := List.mem_filterMap.mp listed
    obtain ⟨rfl, same⟩ := Option.ite_none_right_eq_some.mp picked
    obtain rfl : x' = x := Option.some.inj same
    obtain ⟨c, i, method, item⟩ := spelled.thrown _ there
    exact ⟨c, i, ⟨id, x', method, item, there⟩, (obj?_of_itemOf item).mp known⟩
  · rintro ⟨c, i, ⟨id, x, _, item, there⟩, object⟩
    exact ⟨x, List.mem_filterMap.mpr ⟨_, there, if_pos rfl⟩, (obj?_of_itemOf item).mpr object⟩

theorem Spelled.mem_uncaughtOf (spelled : s.Spelled f) :
    o ∈ s.uncaughtOf f m ↔ ∃ c i, s.EscapedFrom f c m i ∧ f.heap.get? o = some i.obj := by
  rw [Exceptions.uncaughtOf, mem_objsBehind]
  constructor
  · rintro ⟨x, listed, known⟩
    obtain ⟨⟨id, x'⟩, there, same⟩ := List.mem_filterMap.mp listed
    obtain ⟨here, same⟩ := Option.ite_none_right_eq_some.mp same
    cases same
    obtain ⟨c, m', i, ⟨context, method, frame⟩, item⟩ := spelled.uncaught _ there
    rw [method] at here
    cases here
    exact ⟨c, i, ⟨id, x, ⟨context, method, frame⟩, item, there⟩, (obj?_of_itemOf item).mp known⟩
  · rintro ⟨c, i, ⟨id, x, ⟨context, method, _⟩, item, there⟩, object⟩
    refine ⟨x, List.mem_filterMap.mpr ⟨_, there, if_pos ?_⟩, (obj?_of_itemOf item).mpr object⟩
    rw [method]
    rfl

variable {σ : Type u} {rules : HeapRules} {keep : Obj → Prop} {record : List (Moment σ)} {holds : Fact → Prop}

variable (remembers : s.Remembers p f.Found f) (knows : Knows p f keep record s)
  (chronicle : Chronicle p (Law.only p holds) rules record f)

include remembers knows chronicle

theorem thrownAt_iff : s.ThrownAt f c site i ↔ Thrown p f.Found c site i := by
  constructor
  · rintro ⟨id, o, method, item, there⟩
    obtain ⟨c', method', objs⟩ := remembers.thrown _ there
    obtain ⟨i', item', thrown⟩ := objs o (List.mem_singleton_self o)
    obtain ⟨rfl, _⟩ := method.unique method'
    obtain rfl := item.unique item'
    exact thrown
  · exact knows.all chronicle

theorem escapedFrom_iff : s.EscapedFrom f c m i ↔ Escapes p f.Found c m i := by
  constructor
  · rintro ⟨id, o, method, item, there⟩
    obtain ⟨c', m', i', method', item', escapes⟩ := remembers.uncaught _ there
    obtain ⟨rfl, rfl⟩ := method.unique method'
    obtain rfl := item.unique item'
    exact escapes
  · rintro ⟨site, rfl, thrown, free⟩
    obtain ⟨id, o, method, item, there⟩ := knows.all chronicle thrown
    exact ⟨id, o, method, item, (knows.settled.landed _ _ _ there c i method item).2 free⟩

theorem exact (calls : Throwing.ByCalls p f.Found) : s.Exact p f := by
  have spelled : s.Spelled f := by
    constructor
    · intro x there
      obtain ⟨c, method, objs⟩ := remembers.thrown x there
      obtain ⟨i, item, _⟩ := objs _ (List.mem_singleton_self _)
      exact ⟨c, i, method, item⟩
    · intro x there
      obtain ⟨c, m, i, method, item, _⟩ := remembers.uncaught x there
      exact ⟨c, m, i, method, item⟩
  -- told by names, the two families of the handler are those that the facts derive
  have thrown : s.ThrownAt f = Thrown p f.Found := by
    funext c site i
    exact propext (thrownAt_iff remembers knows chronicle)
  have escaped : s.EscapedFrom f = Escapes p f.Found := by
    funext c m i
    exact propext (escapedFrom_iff remembers knows chronicle)
  refine ⟨spelled, ?_, ?_, ?_, fun _ _ => spelled.mem_thrownAt, fun _ _ => spelled.mem_uncaughtOf⟩
  · rw [thrown, escaped]
    exact Throwing.solution calls
  · intro T U closed
    rw [thrown, escaped]
    exact ⟨fun _ _ _ => Throwing.thrown_least calls closed, fun _ _ _ => Throwing.escapes_least calls closed⟩
  · intro c site i there
    rw [thrown] at there
    cases taken : catcher? p site.method site.index i.obj.ty with
    | none => exact Or.inl (Program.passes_iff.mpr taken)
    | some h =>
      exact Or.inr ⟨h, Program.catches_iff.mpr taken, remembers.satisfied c site i h there taken⟩

end Exceptions

def Fact.AtCall (p : Program) : Fact → Prop
  | .called _ _ site _ _ => ∃ call, p.stmt? site = some (.invoke call)
  | .points _ _ | .reached _ _ | .admitted _ _ _ => True

namespace Handler

variable {h : Handler} {p : Program}

def exceptions? : Handler → Option Exceptions
  | exceptions s => some s
  | _ => none

theorem exceptions?_replay {σ : Type u} (record : List (Moment σ)) :
    (replay (Handler.react p) h record).exceptions? =
      h.exceptions?.map fun s => replay (fun e f s => Exceptions.react p s f e) s record := by
  have step : ∀ (h : Handler) e f, (h.react p e f).state.exceptions? =
      h.exceptions?.map fun s => (Exceptions.react p s f e).state := by
    intro h e f
    cases h <;> rfl
  induction record using List.reverseRecOn with
  | nil => exact Option.map_id'.symm
  | append_singleton past x ih =>
    simp only [replay_snoc, step, ih, Option.map_map]
    rfl

end Handler

namespace Registry

variable {p : Program} {o : Options} {config : TaintConfig} {files : FileTree} {chain : Chain} {sel : Selector}

theorem closed_atCall (rules : HeapRules) : Closed (Rule p sel rules) (Fact.AtCall p) := by
  intro premises fact rule _
  cases rule with
  | callStatic stmt _ _ => exact ⟨_, stmt⟩
  | callOn stmt _ _ _ => exact ⟨_, stmt⟩
  | _ => trivial

theorem EntryPoint.gives_atCall {entry : EntryPoint} {x : Fact} (gives : entry.Gives p x) : x.AtCall p := by
  cases gives <;> trivial

theorem Makes.satisfied_atCall {h : Handler} {rules : HeapRules} (made : Makes p o config h)
    (untainted : o.taintConfig = none) : h.Satisfied p sel rules (Fact.AtCall p) := by
  refine made.satisfied_of ?_ (fun _ _ => trivial) (fun _ _ => trivial)
    (fun _ _ _ _ _ calls => ⟨_, Program.stmt?_of_invoke? calls⟩) fun _ _ => EntryPoint.gives_atCall
  rintro s rfl
  cases made with
  | taint tainted => simp [untainted] at tainted

theorem exceptions_at (made : builtin.chain p o files = .ok chain) {σ : Type u} (record : List (Moment σ)) :
    (chain.map fun h => replay (Handler.react p) h record).findSome? Handler.exceptions? =
      some (replay (fun e f s => Exceptions.react p s f e) {} record) := by
  obtain ⟨_, _, _, rfl, _, _⟩ := chain_eq made
  simp only [List.cons_append, List.map_cons, List.findSome?_cons, Handler.exceptions?_replay]
  rfl

theorem solved_exceptions (made : builtin.chain p o files = .ok chain) (untainted : o.taintConfig = none)
    (declared : p.Scoped) {fuel : Nat} {s : State Chain}
    (solved : Solver.solve ⟨p, sel, Chain.handlers p⟩ fuel (Heap.ofProgram p o.mergeStrings) chain = some s) :
    ∃ e : Exceptions, s.handler.findSome? Handler.exceptions? = some e ∧ e.Exact p s.toFacts := by
  obtain ⟨_, closed, satisfied⟩ := solved_satisfied made untainted declared solved
  obtain ⟨record, handlers, stories⟩ := solved_story made untainted declared solved
  obtain ⟨config, makes⟩ := chain_makes made
  -- the rules and the handlers put calls at call statements only, so the run finds them only there
  have calls : Throwing.ByCalls p s.Found := fun _ _ _ _ _ found =>
    (solved_lawful made declared (closed_atCall _)
      (fun h member => (makes h member).satisfied_atCall untainted) solved).1 _ found
  have remembers := (solved_lawful made declared closed satisfied solved).2.2
  have listed : .exceptions {} ∈ chain := by
    obtain ⟨_, _, _, rfl, _, _⟩ := chain_eq made
    simp
  have story : Story p sel (Law.only p fun _ => True) (HeapRules.ofProgram p o.mergeStrings) (fun _ => True)
      (fun e f s => Exceptions.react p s f e) {} record s.toFacts :=
    (stories _ listed).restrict Handler.exceptions fun _ _ _ => rfl
  have here := exceptions_at made record
  rw [← handlers] at here
  obtain ⟨h, member, same⟩ := List.exists_of_findSome?_eq_some here
  refine ⟨_, here, Exceptions.exact ?_ (Exceptions.knows_replay story record [] (List.append_nil _).symm)
    story.toChronicle calls⟩
  have good := remembers h member
  cases h with
  | exceptions e =>
    cases same
    exact good
  | _ => cases same

end Registry

/-- What is thrown where, and what leaves which method, is the least solution of how exceptions spread: under
every selector, the handler of exceptions holds it when a run returns; and every run returns. -/
theorem Analysis.exceptions_exact {a : Analysis} {o : Options} (registered : a.registry = Registry.builtin)
    (untainted : o.taintConfig = none) (declared : a.program.Scoped) (sel : Selector) :
    (∀ r, a.solve o sel = .ok r → ∃ s, r.exceptions? = some s ∧ s.Exact a.program r.facts) ∧
      ∀ chain, a.registry.chain a.program o a.files = .ok chain → ∃ n, ∀ limit, n ≤ limit →
        ∃ r, { a with stepLimit := limit }.solve o sel = .ok r := by
  refine solve_spec registered sel fun chain t made run => ?_
  exact Registry.solved_exceptions made untainted declared run

/-- A method throws an alarm and something that is none, and calls itself; its caller takes alarms, twice. -/
def alarms : Program where
  classes := #[⟨"Object", none, [], false, false, true, [], []⟩,
    ⟨"Alarm", some 0, [], false, false, true, [0, 1], []⟩]
  fields := #[]
  methods := #[
    .routine 1 "ring" "void ring()" none [0, 1]
      [.new 0 (.cls 0), .new 1 (.cls 1), .throw 0, .throw 1,
        .invoke ⟨.static, ⟨1, "void ring()"⟩, none, [], none⟩],
    { name := "main", owner := 1, params := [], ret := .void, flags := ⟨true, false, false⟩
      subsignature := "void main()"
      body := some {
        this := none, params := [], vars := [2, 3], returns := []
        handlers := [⟨0, 1, some (.cls 1), 2⟩, ⟨0, 1, some (.cls 1), 3⟩]
        stmts := [.invoke ⟨.static, ⟨1, "void ring()"⟩, none, [], none⟩] } }]
  vars := #[⟨"noise", .cls 0, 0⟩, ⟨"alarm", .cls 1, 0⟩, ⟨"first", .cls 1, 1⟩, ⟨"second", .cls 1, 1⟩]
  main := some 1

def alarmAnalysis : Except AnalysisError Result :=
  Analysis.solve { program := alarms, files := { root := "" }, stepLimit := 200 } { implicitEntries := false }
    (.limited (.callSite 1))

/-- The numbers of objects that are thrown at the calls of a method and that leave it, and of those that
its variables hold. -/
def Analysis.alarmCounts? (outcome : Except AnalysisError Result) : Option (List Nat) :=
  outcome.toOption.bind fun r => r.exceptions?.map fun s =>
    [(s.thrownAt r.facts ⟨0, 4⟩).length, (s.thrownAt r.facts ⟨1, 0⟩).length,
      (s.uncaughtOf r.facts 1).length, (r.pointsTo 2).length, (r.pointsTo 3).length]

/-- Both objects come out of the recursion; of the two, the caller takes one, in its first entry. -/
theorem Analysis.alarms_exact : ∃ r s, alarmAnalysis = .ok r ∧ r.exceptions? = some s ∧
    [(s.thrownAt r.facts ⟨0, 4⟩).length, (s.thrownAt r.facts ⟨1, 0⟩).length,
      (s.uncaughtOf r.facts 1).length, (r.pointsTo 2).length, (r.pointsTo 3).length] = [2, 2, 1, 1, 0] ∧
    s.Exact alarms r.facts := by
  have counted : alarmCounts? alarmAnalysis = some [2, 2, 1, 1, 0] := by decide +kernel
  obtain ⟨r, returned, counts⟩ := Option.bind_eq_some_iff.mp counted
  obtain ⟨s, holds, counts⟩ := Option.map_eq_some_iff.mp counts
  have solved := ok_of_toOption returned
  obtain ⟨s', holds', exact_⟩ := (exceptions_exact rfl rfl (by decide) _).1 r solved
  cases holds.symm.trans holds'
  exact ⟨r, s, solved, holds, counts, exact_⟩

end PointsTo
