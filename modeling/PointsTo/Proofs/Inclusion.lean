import PointsTo.CallGraph
import PointsTo.Command
import PointsTo.Context.Selector

/-!
What the analysis means, told without handles. A frame is a context spelled out, an item is an
object under a frame, a cell is a pointer made of such. The inclusion rules say which facts follow
from which; a solution is a set of facts closed under them.
-/
namespace PointsTo

inductive FrameElem
  | callSite (site : StmtRef)
  | object (obj : Obj)
  | type (cls : ClassId)
  deriving DecidableEq

abbrev Frame := List FrameElem

def Frame.recent (limit : Nat) (f : Frame) : Frame := f.drop (f.length - limit)

structure Item where
  frame : Frame
  obj : Obj
  deriving DecidableEq

inductive Cell
  | var (frame : Frame) (v : VarId)
  | field (base : Item) (f : FieldId)
  | element (array : Item)
  | static (f : FieldId)
  deriving DecidableEq

inductive Fact
  | points (cell : Cell) (item : Item)
  /-- A method runs in a frame. -/
  | reached (frame : Frame) (m : MethodId)
  /-- A statement in a frame calls a method in a frame. -/
  | called (kind : CallKind) (caller : Frame) (site : StmtRef) (callee : Frame) (m : MethodId)
  /-- A receiver may pass from a variable to a `this`. -/
  | admitted (base this : Cell) (item : Item)
  deriving DecidableEq

/-- The item that lies at a cell. -/
def Fact.held? : Fact → Option Item
  | points _ i => some i
  | reached _ _ | called _ _ _ _ _ | admitted _ _ _ => none

theorem HeapRules.allocated_clean (rules : HeapRules) (site : StmtRef) (ty : Ty) :
    (rules.allocated site ty).isTaint = false := by
  unfold allocated
  split <;> rfl

theorem HeapRules.constant_clean (rules : HeapRules) (value : Literal) :
    (rules.constant value).isTaint = false := rfl

/-- The class that stands for an object in frames made of types. -/
def typeOf? (p : Program) (o : Obj) : Option ClassId :=
  match o.container?.bind p.ownerOf? with
  | some c => some c
  | none => p.dispatchClass? o.ty

def ContextSpec.calleeFrame (spec : ContextSpec) (p : Program) (caller : Frame) (site : StmtRef)
    (receiver : Option Item) : Frame :=
  match spec, receiver with
  | insensitive, _ => []
  | callSite k, _ => Frame.recent k (caller ++ [.callSite site])
  | object k, none | type k, none => Frame.recent k caller
  | object k, some r => Frame.recent k (r.frame ++ [.object r.obj])
  | type k, some r =>
    match typeOf? p r.obj with
    | some c => Frame.recent k (r.frame ++ [.type c])
    | none => Frame.recent k r.frame

namespace Selector

def calleeFrame (sel : Selector) (p : Program) (caller : Frame) (site : StmtRef)
    (receiver : Option Item) (callee : MethodId) : Frame :=
  match sel.specOf? callee with
  | some spec => spec.calleeFrame p caller site receiver
  | none => []

def heapFrame (sel : Selector) (f : Frame) (m : MethodId) : Frame :=
  match sel.specOf? m with
  | some spec => Frame.recent (spec.limit - 1) f
  | none => []

end Selector

/-- String and class literals are objects of their own. -/
def Literal.isConstant : Literal → Bool
  | str _ | cls _ => true
  | null | int _ | float _ => false

namespace Stmt

def base? : Stmt → Option VarId
  | loadField _ base _ | storeField base _ _ | loadArray _ base | storeArray base _ => some base
  | invoke call => call.base
  | _ => none

/-- Source and target of a copy, a static load and a static store. -/
def moves? (c : Frame) : Stmt → Option (Cell × Cell)
  | copy lhs rhs => some (.var c rhs, .var c lhs)
  | loadStatic lhs f => some (.static f, .var c lhs)
  | storeStatic f rhs => some (.var c rhs, .static f)
  | _ => none

/-- Source and target of a load or store on one item of the base. -/
def accesses? (c : Frame) (b : Item) : Stmt → Option (Cell × Cell)
  | loadField lhs _ f => some (.field b f, .var c lhs)
  | storeField _ f rhs => some (.var c rhs, .field b f)
  | loadArray lhs _ => some (.element b, .var c lhs)
  | storeArray _ rhs => some (.var c rhs, .element b)
  | _ => none

/-- The kind of the edges that a copy, a load or a store makes. -/
def flowKind : Stmt → FlowKind
  | loadField _ _ _ => .instanceLoad
  | storeField _ _ _ => .instanceStore
  | loadArray _ _ => .arrayLoad
  | storeArray _ _ => .arrayStore
  | loadStatic _ _ => .staticLoad
  | storeStatic _ _ => .staticStore
  | _ => .localAssign

theorem flowKind_plain (stmt : Stmt) : stmt.flowKind ≠ .thisPassing := by
  cases stmt <;> simp [flowKind]

end Stmt

/-- The inclusion rules: from all facts of a list follows one. -/
inductive Rule (p : Program) (sel : Selector) (heap : HeapRules) : List Fact → Fact → Prop
  | new {c : Frame} {site : StmtRef} {lhs : VarId} {ty : Ty}
      (stmt : p.stmt? site = some (.new lhs ty)) :
      Rule p sel heap [.reached c site.method]
        (.points (.var c lhs) ⟨sel.heapFrame c site.method, heap.allocated site ty⟩)
  | literal {c : Frame} {site : StmtRef} {lhs : VarId} {value : Literal}
      (stmt : p.stmt? site = some (.literal lhs value)) (constant : value.isConstant = true) :
      Rule p sel heap [.reached c site.method] (.points (.var c lhs) ⟨[], heap.constant value⟩)
  | move {c : Frame} {site : StmtRef} {stmt : Stmt} {x y : Cell} {i : Item}
      (known : p.stmt? site = some stmt) (moves : stmt.moves? c = some (x, y)) :
      Rule p sel heap [.reached c site.method, .points x i] (.points y i)
  | cast {c : Frame} {site : StmtRef} {lhs rhs : VarId} {ty : Ty} {i : Item}
      (stmt : p.stmt? site = some (.cast lhs rhs ty)) (fits : p.isSubtype i.obj.ty ty = true) :
      Rule p sel heap [.reached c site.method, .points (.var c rhs) i] (.points (.var c lhs) i)
  | access {c : Frame} {site : StmtRef} {stmt : Stmt} {base : VarId} {b i : Item} {x y : Cell}
      (known : p.stmt? site = some stmt) (on : stmt.base? = some base)
      (accesses : stmt.accesses? c b = some (x, y)) :
      Rule p sel heap [.reached c site.method, .points (.var c base) b, .points x i] (.points y i)
  | callStatic {c : Frame} {site : StmtRef} {call : Invoke} {m : MethodId}
      (stmt : p.stmt? site = some (.invoke call)) (static : call.base = none)
      (resolved : p.resolve? call.target = some m) :
      Rule p sel heap [.reached c site.method]
        (.called (.ofInvoke call.kind) c site (sel.calleeFrame p c site none m) m)
  | callOn {c : Frame} {site : StmtRef} {call : Invoke} {base : VarId} {r : Item} {m : MethodId}
      (stmt : p.stmt? site = some (.invoke call)) (on : call.base = some base)
      (real : r.obj.ty ≠ .null) (resolved : p.callee? call r.obj.ty = some m) :
      Rule p sel heap [.reached c site.method, .points (.var c base) r]
        (.called (.ofInvoke call.kind) c site (sel.calleeFrame p c site (some r) m) m)
  | admits {c : Frame} {site : StmtRef} {call : Invoke} {base this : VarId} {r : Item} {m : MethodId}
      (stmt : p.stmt? site = some (.invoke call)) (on : call.base = some base)
      (real : r.obj.ty ≠ .null) (resolved : p.callee? call r.obj.ty = some m)
      (receives : p.this? m = some this) :
      Rule p sel heap [.reached c site.method, .points (.var c base) r]
        (.admitted (.var c base) (.var (sel.calleeFrame p c site (some r) m) this) r)
  | pass {x y : Cell} {i : Item} : Rule p sel heap [.admitted x y i, .points x i] (.points y i)
  | reach {kind : CallKind} {c d : Frame} {site : StmtRef} {m : MethodId} :
      Rule p sel heap [.called kind c site d m] (.reached d m)
  | param {kind : CallKind} {c d : Frame} {site : StmtRef} {m : MethodId} {call : Invoke} {body : Body}
      {arg param : VarId} {i : Item} (passes : kind ≠ .other) (calls : p.invoke? site = some call)
      (code : p.body? m = some body) (pair : (arg, param) ∈ call.args.zip body.params) :
      Rule p sel heap [.called kind c site d m, .points (.var c arg) i] (.points (.var d param) i)
  | ret {kind : CallKind} {c d : Frame} {site : StmtRef} {m : MethodId} {call : Invoke} {body : Body}
      {result returned : VarId} {i : Item} (passes : kind ≠ .other)
      (calls : p.invoke? site = some call) (code : p.body? m = some body)
      (answer : call.result = some result) (returns : returned ∈ body.returns) :
      Rule p sel heap [.called kind c site d m, .points (.var d returned) i]
        (.points (.var c result) i)

/-- The edges along which facts let objects flow: one for each rule that passes objects on. -/
inductive FlowRule (p : Program) (holds : Fact → Prop) : FlowLabel → Cell → Cell → Prop
  | move {c : Frame} {site : StmtRef} {stmt : Stmt} {x y : Cell} (known : p.stmt? site = some stmt)
      (moves : stmt.moves? c = some (x, y)) (reached : holds (.reached c site.method)) :
      FlowRule p holds (.plain stmt.flowKind) x y
  | cast {c : Frame} {site : StmtRef} {lhs rhs : VarId} {ty : Ty}
      (stmt : p.stmt? site = some (.cast lhs rhs ty)) (reached : holds (.reached c site.method)) :
      FlowRule p holds (.cast ty) (.var c rhs) (.var c lhs)
  | access {c : Frame} {site : StmtRef} {stmt : Stmt} {base : VarId} {b : Item} {x y : Cell}
      (known : p.stmt? site = some stmt) (on : stmt.base? = some base)
      (accesses : stmt.accesses? c b = some (x, y)) (reached : holds (.reached c site.method))
      (based : holds (.points (.var c base) b)) : FlowRule p holds (.plain stmt.flowKind) x y
  | pass {x y : Cell} {i : Item} (admitted : holds (.admitted x y i)) :
      FlowRule p holds (.plain .thisPassing) x y
  | param {kind : CallKind} {c d : Frame} {site : StmtRef} {m : MethodId} {call : Invoke} {body : Body}
      {arg param : VarId} (passes : kind ≠ .other) (calls : p.invoke? site = some call)
      (code : p.body? m = some body) (pair : (arg, param) ∈ call.args.zip body.params)
      (called : holds (.called kind c site d m)) :
      FlowRule p holds (.plain .parameterPassing) (.var c arg) (.var d param)
  | ret {kind : CallKind} {c d : Frame} {site : StmtRef} {m : MethodId} {call : Invoke} {body : Body}
      {result returned : VarId} (passes : kind ≠ .other) (calls : p.invoke? site = some call)
      (code : p.body? m = some body) (answer : call.result = some result)
      (returns : returned ∈ body.returns) (called : holds (.called kind c site d m)) :
      FlowRule p holds (.plain .ret) (.var d returned) (.var c result)

/-- A set of facts holds all that its facts entail. -/
def Closed (rule : List Fact → Fact → Prop) (holds : Fact → Prop) : Prop :=
  ∀ premises fact, rule premises fact → (∀ x ∈ premises, holds x) → holds fact

namespace Closed

variable {rule : List Fact → Fact → Prop} {holds : Fact → Prop} {x a b c : Fact}

theorem one (closed : Closed rule holds) (follows : rule [a] x) (first : holds a) : holds x :=
  closed _ _ follows (by simpa using first)

theorem two (closed : Closed rule holds) (follows : rule [a, b] x) (first : holds a)
    (second : holds b) : holds x :=
  closed _ _ follows (by simpa using ⟨first, second⟩)

theorem three (closed : Closed rule holds) (follows : rule [a, b, c] x) (first : holds a)
    (second : holds b) (third : holds c) : holds x :=
  closed _ _ follows (by simpa using ⟨first, second, third⟩)

end Closed

/-- Facts with a finite derivation from seeds. -/
inductive Derivable (rule : List Fact → Fact → Prop) (seed : Fact → Prop) : Fact → Prop
  | seed {fact : Fact} (given : seed fact) : Derivable rule seed fact
  | rule {premises : List Fact} {fact : Fact} (follows : rule premises fact)
      (derived : ∀ x ∈ premises, Derivable rule seed x) : Derivable rule seed fact

theorem Derivable.closed (rule : List Fact → Fact → Prop) (seed : Fact → Prop) :
    Closed rule (Derivable rule seed) :=
  fun _ _ follows derived => Derivable.rule follows derived

theorem Derivable.least {rule : List Fact → Fact → Prop} {seed holds : Fact → Prop}
    (closed : Closed rule holds) (seeded : ∀ x, seed x → holds x) {fact : Fact}
    (derived : Derivable rule seed fact) : holds fact := by
  induction derived with
  | seed given => exact seeded _ given
  | rule follows _ ih => exact closed _ _ follows ih

/-- What an entry point starts with: its method, and the objects of its receiver, of its parameters,
and of fields and arrays. -/
inductive EntryPoint.Gives (p : Program) (entry : EntryPoint) : Fact → Prop
  | reached : Gives p entry (.reached [] entry.method)
  | this {body : Body} {this : VarId} {o : Obj} (code : p.body? entry.method = some body)
      (receives : body.this = some this) (given : o ∈ entry.thisObjs) :
      Gives p entry (.points (.var [] this) ⟨[], o⟩)
  | param {body : Body} {i : Nat} {param : VarId} {o : Obj} (code : p.body? entry.method = some body)
      (place : body.params[i]? = some param) (given : (i, o) ∈ entry.params) :
      Gives p entry (.points (.var [] param) ⟨[], o⟩)
  | field {body : Body} {base o : Obj} {f : FieldId} (code : p.body? entry.method = some body)
      (given : (base, f, o) ∈ entry.fields) : Gives p entry (.points (.field ⟨[], base⟩ f) ⟨[], o⟩)
  | element {body : Body} {array o : Obj} (code : p.body? entry.method = some body)
      (given : (array, o) ∈ entry.elements) : Gives p entry (.points (.element ⟨[], array⟩) ⟨[], o⟩)

end PointsTo
