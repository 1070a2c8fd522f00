import PointsTo.Registry
import PointsTo.Proofs.Inclusion

/-!
What handlers do, told without handles. A set of facts satisfies a handler if all that the handler would
ask for on account of the facts is in the set; the inclusion rules and the handlers of a run together say
what the run has to find.
-/
namespace PointsTo

theorem EntryPoint.gives_bare {p : Program} {m : MethodId} {x : Fact}
    (gives : EntryPoint.Gives p { method := m } x) : x = .reached [] m := by
  cases gives with
  | reached => rfl
  | this _ _ given => cases given
  | param _ _ given => cases given
  | field _ given => cases given
  | element _ given => cases given

structure Entries.Satisfied (p : Program) (holds : Fact → Prop) (s : Entries) : Prop where
  entries : ∀ m ∈ s.entries, ∀ x, (EntryPoint.mocked p m).Gives p x → holds x
  implicit : ∀ m ∈ s.implicit, holds (.reached [] m)

def initializersOf (p : Program) (c : ClassId) : List MethodId :=
  (p.superclasses c).filterMap fun d => p.declared? d initializerSubsignature

def Initialized.Satisfied (p : Program) (holds : Fact → Prop) : Prop :=
  ∀ c m d i, holds (.reached c m) → d ∈ neededClasses p m → i ∈ initializersOf p d →
    holds (.reached [] i)

structure ThreadMethods.Satisfied (p : Program) (rules : HeapRules) (holds : Fact → Prop)
    (t : ThreadMethods) : Prop where
  starts : t.implicit = true → ∀ entry, .addEntryPoint entry ∈
    (Threads.start rules { methods := t }).commands → ∀ x, entry.Gives p x → holds x
  main : t.implicit = true → ∀ m v, t.current = some (m, v) → ∀ c, holds (.reached c m) →
    holds (.points (.var c v) ⟨[], t.mainThread⟩)
  started : ∀ w m v, t.startThis = some w → t.current = some (m, v) → ∀ c d i,
    holds (.points (.var c w) i) → holds (.reached d m) → holds (.points (.var d v) i)

def CallModels.Models {κ : Type} (p : Program) (t : CallModels κ) (c : ModeledCall κ) : Prop :=
  t.callAt? p c.site = some c

structure Natives.Satisfied (p : Program) (holds : Fact → Prop) (s : Natives) : Prop where
  /-- Where a copying call is reached, its result is the copy. -/
  copies : ∀ c, s.models.Models p c → c.key = .copyOf → ∀ copy, copyObj? p c = some copy →
    ∀ result, c.call.result = some result → ∀ frame, holds (.reached frame c.site.method) →
      holds (.points (.var frame result) ⟨[], copy⟩)
  /-- Elements of what is copied are elements of the copy. -/
  copied : ∀ c, s.models.Models p c → c.key = .copyOf → ∀ copy, copyObj? p c = some copy →
    ∀ arg, c.call.args.head? = some arg → ∀ frame i j, holds (.points (.var frame arg) i) →
      holds (.points (.element i) j) → holds (.points (.element ⟨[], copy⟩) j)
  cloned : ∀ c, s.models.Models p c → c.key = .clone → ∀ base result, c.call.base = some base →
    c.call.result = some result → ∀ frame i, holds (.reached frame c.site.method) →
      holds (.points (.var frame base) i) → holds (.points (.var frame result) i)
  crossed : ∀ c, s.models.Models p c → c.key = .arrayCopy → ∀ source target,
    c.call.args.head? = some source → c.call.args[2]? = some target → ∀ frame i j k,
      holds (.points (.var frame source) i) → holds (.points (.var frame target) j) →
      holds (.points (.element i) k) → holds (.points (.element j) k)

/-- The edges along which models of native methods let objects flow. -/
inductive Natives.Flow (p : Program) (holds : Fact → Prop) : FlowLabel → Cell → Cell → Prop
  | copied {c : ModeledCall NativeModel} {copy : Obj} {arg : VarId} {frame : Frame} {i : Item}
      (models : (ofProgram p).models.Models p c) (key : c.key = .copyOf) (made : copyObj? p c = some copy)
      (first : c.call.args.head? = some arg) (held : holds (.points (.var frame arg) i)) :
      Flow p holds (.other { origin := "native-copyof", key := c.site.code }) (.element i)
        (.element ⟨[], copy⟩)
  | cloned {c : ModeledCall NativeModel} {base result : VarId} {frame : Frame}
      (models : (ofProgram p).models.Models p c) (key : c.key = .clone) (on : c.call.base = some base)
      (answer : c.call.result = some result) (reached : holds (.reached frame c.site.method)) :
      Flow p holds (.plain .localAssign) (.var frame base) (.var frame result)
  | crossed {c : ModeledCall NativeModel} {source target : VarId} {frame : Frame} {i j : Item}
      (models : (ofProgram p).models.Models p c) (key : c.key = .arrayCopy)
      (first : c.call.args.head? = some source) (third : c.call.args[2]? = some target)
      (from_ : holds (.points (.var frame source) i)) (to_ : holds (.points (.var frame target) j)) :
      Flow p holds (.other { origin := "native-arraycopy", key := c.site.code }) (.element i) (.element j)

/-- An item is thrown at a statement: by the statement, or out of a method that it calls. -/
inductive Thrown (p : Program) (holds : Fact → Prop) : Frame → StmtRef → Item → Prop
  | here {c : Frame} {site : StmtRef} {v : VarId} {i : Item} (stmt : p.stmt? site = some (.throw v))
      (at_ : holds (.points (.var c v) i)) : Thrown p holds c site i
  | through {kind : CallKind} {c d : Frame} {site inner : StmtRef} {i : Item}
      (thrown : Thrown p holds d inner i)
      (free : catcher? p inner.method inner.index i.obj.ty = none)
      (called : holds (.called kind c site d inner.method)) : Thrown p holds c site i

def Exceptions.Satisfied (p : Program) (holds : Fact → Prop) : Prop :=
  ∀ c site i h, Thrown p holds c site i → catcher? p site.method site.index i.obj.ty = some h →
    holds (.points (.var c h.var) i)

namespace Reflection

def lookedUp (p : Program) (rules : HeapRules) (s : Reflection) (site : StmtRef) (o : Obj) : Obj :=
  match namedClass? p o with
  | some cls => rules.constant (.cls (.cls cls))
  | none => unknownObj site s.classTy

theorem lookedUp_site? {p : Program} {rules : HeapRules} {s : Reflection} {site : StmtRef} {o : Obj} :
    (s.lookedUp p rules site o).site? = none := by
  unfold lookedUp
  split <;> rfl

def instance_ (site : StmtRef) (cls : ClassId) : Obj :=
  Obj.mockIn .reflective (.stmt site) (.cls cls) site.method

structure Satisfied (p : Program) (sel : Selector) (rules : HeapRules) (holds : Fact → Prop)
    (s : Reflection) : Prop where
  lookUp : ∀ c, s.models.Models p c → c.key = .forName → ∀ arg result, c.call.args.head? = some arg →
    c.call.result = some result → ∀ frame i, holds (.points (.var frame arg) i) →
      holds (.points (.var frame result) ⟨[], s.lookedUp p rules c.site i.obj⟩) ∧
        ∀ cls ∈ namedClass? p i.obj, ∀ m ∈ initializersOf p cls, holds (.reached [] m)
  makes : ∀ c, s.models.Models p c → c.key = .newInstance → ∀ base result, c.call.base = some base →
    c.call.result = some result → ∀ frame i, holds (.points (.var frame base) i) →
      ∀ cls ∈ instantiable? p i.obj, holds (.points (.var frame result) ⟨[], instance_ c.site cls⟩)
  constructs : ∀ c, s.models.Models p c → c.key = .newInstance → ∀ base result,
    c.call.base = some base → c.call.result = some result → ∀ frame i,
      holds (.points (.var frame base) i) → ∀ cls ∈ instantiable? p i.obj,
      ∀ init ∈ p.declared? cls "void <init>()",
        let callee := sel.calleeFrame p frame c.site (some ⟨[], instance_ c.site cls⟩) init
        holds (.called .other frame c.site callee init) ∧
          ∀ this ∈ p.this? init, holds (.points (.var callee this) ⟨[], instance_ c.site cls⟩)
  classes : ∀ c, s.models.Models p c → c.key = .getClass → ∀ base result, c.call.base = some base →
    c.call.result = some result → ∀ frame i, holds (.points (.var frame base) i) →
      ∀ k ∈ classObj? rules i.obj, holds (.points (.var frame result) ⟨[], k⟩)
  unknown : ∀ c, s.models.Models p c → c.key.isUnknown = true → ∀ result,
    c.call.result = some result → ∀ frame, holds (.reached frame c.site.method) →
      holds (.points (.var frame result) ⟨[], unknownObj c.site s.objectTy⟩)

end Reflection

def LiteralAssigns.Satisfied (p : Program) (accepts : Literal → Bool)
    (obj? : VarId → Literal → Option Obj) (holds : Fact → Prop) : Prop :=
  ∀ site v value o, p.stmt? site = some (.literal v value) → accepts value = true →
    obj? v value = some o → ∀ c, holds (.reached c site.method) → holds (.points (.var c v) ⟨[], o⟩)

/-- Taint and scripts are left out: what they ask for depends on more than facts. -/
def Handler.Satisfied (p : Program) (sel : Selector) (rules : HeapRules) (holds : Fact → Prop) :
    Handler → Prop
  | timer | warnings _ => True
  | entries s => s.Satisfied p holds
  | initializers _ => Initialized.Satisfied p holds
  | threads s => s.methods.Satisfied p rules holds
  | natives s => s.Satisfied p holds
  | exceptions _ => Exceptions.Satisfied p holds
  | reflection s => s.Satisfied p sel rules holds
  | nulls _ => LiteralAssigns.Satisfied p (· == .null) (fun _ _ => some nullObj) holds
  | numbers _ => LiteralAssigns.Satisfied p Literal.isNumber (numberObj? p) holds
  | taint _ | script _ => False

end PointsTo
