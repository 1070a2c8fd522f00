import PointsTo.Handlers.Script
import PointsTo.Proofs.Confinement

/-!
Objects that handlers vouch for. If a handler vouches for all taint that it brings, and its edges lead
from such objects to such objects, then it vouches for all taint that is ever there: what statements
make is no taint.
-/
namespace PointsTo

def ObjRef.objs : ObjRef → List Obj
  | interned _ => []
  | described _ o => [o]

def PointerRef.objs : PointerRef → List Obj
  | field base _ => base.objs
  | element array => array.objs
  | _ => []

theorem EntryPoint.forall_mem_objs {e : EntryPoint} {holds : Obj → Prop} : (∀ o ∈ e.objs, holds o) ↔
    (∀ o ∈ e.thisObjs, holds o) ∧ (∀ x ∈ e.params, holds x.2) ∧
      (∀ x ∈ e.fields, holds x.1 ∧ holds x.2.2) ∧ ∀ x ∈ e.elements, holds x.1 ∧ holds x.2 := by
  simp only [objs, List.forall_mem_append, List.forall_mem_map, List.forall_mem_flatMap,
    List.forall_mem_cons, List.not_mem_nil, false_imp_iff, implies_true, and_true, and_assoc]

namespace Command

def objs : Command → List Obj
  | addPointsTo pointer refs => pointer.objs ++ refs.flatMap ObjRef.objs
  | addEntryPoint entry => entry.objs
  | addFilter pointer _ => pointer.objs
  | addFlow _ source target => source.objs ++ target.objs
  | addCall _ _ _ _ receiver => receiver.toList.flatMap ObjRef.objs
  | propagate pointer => pointer.objs

def label? : Command → Option FlowLabel
  | addFlow label _ _ => some label
  | _ => none

end Command

/-- What a handler says of the taint that it brings. -/
structure Voucher {σ : Type u} (cx : Setup σ) where
  Good : σ → Prop
  Vouches : σ → Obj → Prop
  Carries : FlowLabel → Prop
  /-- A later state of the handler; it takes nothing back. -/
  Later : σ → σ → Prop
  refl : ∀ h, Later h h
  trans : ∀ {h i j}, Later h i → Later i j → Later h j
  later : ∀ {h i o}, Later h i → Vouches h o → Vouches i o
  clean : ∀ h o, o.isTaint = false → Vouches h o
  plain : ∀ kind, Carries (.plain kind)
  cast : ∀ ty, Carries (.cast ty)
  crosses : ∀ {h info t c o d o'}, Carries (.other info) → info.transfer = some t → Vouches h o →
    t c o = some (d, o') → Vouches h o'
  react : ∀ e f h, Good h → Good (cx.handlers.react e f h).state ∧
    Later h (cx.handlers.react e f h).state ∧
    (∀ o ∈ (cx.handlers.react e f h).created, Vouches (cx.handlers.react e f h).state o) ∧
    ∀ c ∈ (cx.handlers.react e f h).commands,
      (∀ o ∈ c.objs, Vouches (cx.handlers.react e f h).state o) ∧ ∀ label, c.label? = some label → Carries label
  sleeps : ∀ n f h, Good h → cx.handlers.phaseEnd f n h = { state := h }

namespace State

variable {σ : Type u} {cx : Setup σ} {P : Voucher cx} {s t u : State σ}

/-- The handler vouches for all objects that are there or on order, and for all that edges do to them. -/
structure Vouched (P : Voucher cx) (s : State σ) : Prop where
  objects : ∀ id o, s.heap.get? id = some o → P.Vouches s.handler o
  edges : ∀ id e, s.flow.edge? id = some e → P.Carries e.label
  queued : ∀ c ∈ s.queue, (∀ o ∈ c.objs, P.Vouches s.handler o) ∧
    ∀ label, c.label? = some label → P.Carries label
  good : P.Good s.handler

/-- One state leads to another for which the handler vouches as well. -/
structure Leads (P : Voucher cx) (s t : State σ) : Prop extends t.Vouched P where
  later : P.Later s.handler t.handler

theorem Leads.trans (first : s.Leads P t) (second : t.Leads P u) : s.Leads P u :=
  ⟨second.toVouched, P.trans first.later second.later⟩

theorem Vouched.leads (vouched : t.Vouched P) (same : t.handler = s.handler) : s.Leads P t :=
  ⟨vouched, same ▸ P.refl _⟩

theorem Vouched.refl (vouched : s.Vouched P) : s.Leads P s := vouched.leads rfl

namespace Vouched

variable {o : Obj} {e : FlowEdge}

section

variable (vouched : s.Vouched P)

include vouched

theorem notify (e : Event) : s.Leads P (s.notify cx e) := by
  obtain ⟨good, later, created, commands⟩ := P.react e s.toFacts s.handler vouched.good
  refine ⟨⟨fun id o found => ?_, vouched.edges, fun c listed => ?_, good⟩, later⟩
  · rcases Table.get?_internAll_inv found with old | new
    · exact P.later later (vouched.objects id o old)
    · exact created o new
  · rcases List.mem_append.mp listed with old | new
    · obtain ⟨objs, label⟩ := vouched.queued c old
      exact ⟨fun o member => P.later later (objs o member), label⟩
    · exact commands c new

theorem internObj (vouches : P.Vouches s.handler o) : (s.internObj o).1.Vouched P := by
  refine { vouched with objects := fun id o' found => ?_ }
  rcases Table.get?_intern_inv found with old | ⟨rfl, _⟩
  · exact vouched.objects id o' old
  · exact vouches

theorem internDescribed (c : ContextId) (vouches : P.Vouches s.handler o) : (s.internDescribed c o).1.Vouched P :=
  { vouched.internObj vouches with }

theorem pushPoints (q : PointerId) (set : ObjSet) : (s.pushPoints q set).Vouched P := { vouched with }

theorem internPointer (ptr : Pointer) : (s.internPointer ptr).1.Vouched P :=
  { vouched with }

theorem described {o : CsObjId} {d : ContextId × Obj} (known : s.describe? o = some d) :
    P.Vouches s.handler d.2 := by
  obtain ⟨id, _, found⟩ := Facts.describe?_eq_some.mp known
  exact vouched.objects id d.2 found

theorem send (id : EdgeId) (set : ObjSet) : (s.send cx.program set id).Vouched P := by
  refine send_keeps (P := (·.Vouched P)) (flowOver_keeps set vouched ?_) fun _ q out known =>
    known.pushPoints q out
  intro e info t edge label transfer u _ _ made known described crossed
  have carries := vouched.edges id e edge
  rw [label] at carries
  exact known.internDescribed made.1 (P.crosses carries transfer (known.described described) crossed)

theorem sendAll (q : PointerId) (set : ObjSet) : (s.sendAll cx.program q set).Vouched P :=
  List.foldlRecOn (motive := Vouched P) _ _ vouched fun _ known id _ => known.send id set

theorem pushEdge (carries : P.Carries e.label) : (s.pushEdge e).Vouched P := by
  refine { vouched with edges := fun id d edge => ?_ }
  rcases EdgeStore.edge?_add_inv edge with old | ⟨_, rfl⟩
  · exact vouched.edges id d old
  · exact carries

theorem addFlow (carries : P.Carries e.label) : (s.addFlow cx.program e).Vouched P :=
  addFlow_keeps (P := (·.Vouched P)) vouched (vouched.pushEdge carries) fun _ id pts known _ => known.send id pts

theorem link (kind : FlowKind) (a b : Pointer) : (s.link cx.program kind a b).Vouched P :=
  ((vouched.internPointer a).internPointer b).addFlow (P.plain kind)

theorem passReceiver (base this : PointerId) (receiver : CsObjId) :
    (s.passReceiver base this receiver).Vouched P := by
  have added := vouched.pushEdge (e := FlowEdge.plain .thisPassing base this) (P.plain _)
  exact passReceiver_keeps added fun _ => { added with }

theorem callTo (kind : CallKind) (context : ContextId) (site : StmtRef) (receiver : Option Receiver)
    (callee : MethodId) : (s.callTo cx kind context site receiver callee).1.Vouched P := { vouched with }

theorem callOn (context : ContextId) (base : PointerId) (site : StmtRef) (call : Invoke) (receiver : CsObjId) :
    s.Leads P (s.callOn cx context base site call receiver) := by
  unfold State.callOn
  split
  · split
    · exact vouched.refl
    · split
      · exact vouched.notify _
      · next callee _ =>
        dsimp only
        have called := vouched.callTo (CallKind.ofInvoke call.kind) context site
        split
        · exact (called _ callee).leads rfl
        · exact (((called _ callee).internPointer _).passReceiver base _ receiver).leads
            (passReceiver_hush _ base _ receiver).handler
  · exact vouched.refl

end

theorem foldl {α : Type v} {f : State σ → α → State σ} (vouched : s.Vouched P) (items : List α)
    (each : ∀ t : State σ, s.Leads P t → ∀ a ∈ items, t.Leads P (f t a)) : s.Leads P (items.foldl f s) :=
  List.foldlRecOn (motive := Leads P s) items f vouched.refl fun t led a member =>
    led.trans (each t led a member)

variable (vouched : s.Vouched P)

include vouched

theorem callOnAll (context : ContextId) (base : PointerId) (site : StmtRef) (call : Invoke) (delta : ObjSet) :
    s.Leads P (s.callOnAll cx context base site call delta) := by
  have known : s.Leads P (s.internSite context site).1 := ⟨{ vouched with }, P.refl _⟩
  exact known.trans (known.toVouched.foldl _ fun t led o _ => led.toVouched.callOn context base site call o)

theorem callStatic (context : ContextId) (site : StmtRef) (call : Invoke) :
    s.Leads P (s.callStatic cx context site call) := by
  unfold State.callStatic
  split
  · exact vouched.notify _
  · exact (vouched.callTo _ context site none _).leads rfl

theorem accessAll (context : ContextId) (stmts : List (StmtRef × Stmt)) (o : CsObjId) :
    (s.accessAll cx.program context stmts o).Vouched P :=
  accessAll_induct vouched fun _ there _ _ kind a b _ => there.link kind a b

theorem useDelta (context : ContextId) (v : VarId) (q : PointerId) (delta : ObjSet) :
    s.Leads P (s.useDelta cx context v q delta) := by
  have accessed := vouched.foldl delta.toList fun t led o _ =>
    (led.toVouched.accessAll context (s.basedOn cx.program v) o).leads (accessAll_hush t context _ o).handler
  refine accessed.trans (accessed.toVouched.foldl _ fun t led x _ => ?_)
  obtain ⟨site, stmt⟩ := x
  cases stmt with
  | invoke call => exact led.toVouched.callOnAll context q site call delta
  | _ => exact led.toVouched.refl

theorem runStmt (context : ContextId) (site : StmtRef) (stmt : Stmt) :
    s.Leads P (s.runStmt cx context site stmt) := by
  cases stmt with
  | new lhs ty =>
    have made := vouched.internObj (P.clean s.handler _ (HeapRules.allocated_clean s.heap.rules site ty))
    exact ⟨{ made with }, P.refl _⟩
  | literal lhs value =>
    have made := vouched.internDescribed ContextTable.emptyId
      (P.clean s.handler _ (HeapRules.constant_clean s.heap.rules value))
    cases value with
    | str text => exact ⟨{ made with }, P.refl _⟩
    | cls ty => exact ⟨{ made with }, P.refl _⟩
    | _ => exact vouched.refl
  | copy lhs rhs | loadStatic lhs f | storeStatic f rhs =>
    exact (vouched.link _ _ _).leads (link_hush _ _ _ _).handler
  | cast lhs rhs ty =>
    have known := (vouched.internPointer (.var context rhs)).internPointer (.var context lhs)
    exact (known.addFlow (e := ⟨FlowLabel.cast ty, _, _⟩) (P.cast ty)).leads (addFlow_hush _ _).handler
  | invoke call =>
    simp only [State.runStmt]
    split
    · exact vouched.callStatic context site call
    · exact vouched.refl
  | _ => exact vouched.refl

theorem reach (id : CsMethodId) : s.Leads P (s.reach cx id) :=
  reach_induct (P := s.Leads P) ⟨{ vouched with }, P.refl _⟩ (fun _ _ led => ⟨{ led.toVouched with }, led.later⟩)
    (fun _ e led => led.trans (led.toVouched.notify e))
    fun _ c site stmt led => led.trans (led.toVouched.runStmt c site stmt)

theorem passing (e : CallEdge) : (s.passing cx e).Vouched P :=
  passing_keeps vouched fun _ kind a b there => there.link kind a b

theorem processCall (e : CallEdge) : s.Leads P (s.processCall cx e) := by
  by_cases before : e ∈ s.calls.edges
  · rw [processCall_known before]
    exact vouched.refl
  rw [processCall_new before]
  have recorded : s.Leads P (s.recording e) := ⟨{ vouched with }, P.refl _⟩
  have reached := recorded.trans (recorded.toVouched.reach e.callee)
  have passed := reached.trans ((reached.toVouched.passing e).leads (passing_hush _ cx e).handler)
  exact passed.trans (passed.toVouched.notify _)

theorem processPoints (q : PointerId) (set : ObjSet) : s.Leads P (s.processPoints cx q set) := by
  have filled : s.Leads P (s.filled q set) := ⟨{ vouched with }, P.refl _⟩
  rw [processPoints_eq]
  split
  · exact filled
  · have sent := filled.trans ((filled.toVouched.sendAll q (s.news q set)).leads
      (sendAll_hush _ q _).handler)
    refine (sent.trans ?_).trans (notify ?_ _)
    · unfold applying
      split
      · exact sent.toVouched.useDelta _ _ q _
      · exact sent.toVouched.refl
    · unfold applying
      split
      · exact (sent.toVouched.useDelta _ _ q _).toVouched
      · exact sent.toVouched

theorem resolveObj {r : ObjRef} (vouches : ∀ o ∈ r.objs, P.Vouches s.handler o) :
    (s.resolveObj r).1.Vouched P := by
  cases r with
  | interned o => exact vouched
  | described c o => exact vouched.internDescribed c (vouches o (List.mem_singleton_self o))

theorem resolveObjs {rs : List ObjRef} (vouches : ∀ o ∈ rs.flatMap ObjRef.objs, P.Vouches s.handler o) :
    (s.resolveObjs rs).1.Vouched P := by
  induction rs generalizing s with
  | nil => exact vouched
  | cons r rest ih =>
    obtain ⟨first, others⟩ := List.forall_mem_append.mp vouches
    have same := (resolveObj_hush s r).handler
    exact ih (vouched.resolveObj first) fun o member => same.symm ▸ others o member

theorem resolvePointer {r : PointerRef} (vouches : ∀ o ∈ r.objs, P.Vouches s.handler o) :
    (s.resolvePointer r).1.Vouched P := by
  cases r with
  | field base f | element array => exact (vouched.resolveObj vouches).internPointer _
  | interned q => exact vouched
  | var c v | static f => exact vouched.internPointer _

theorem seed (q : PointerId) (vouches : P.Vouches s.handler o) :
    s.Leads P (s.seed q o) := ((vouched.internDescribed _ vouches).pushPoints _ _).leads rfl

theorem seedThis (body : Body) {objs : List Obj} (vouches : ∀ o ∈ objs, P.Vouches s.handler o) :
    s.Leads P (s.seedThis body objs) := by
  unfold State.seedThis
  split
  · exact vouched.refl
  · next this _ =>
    have described : (objs.map ObjRef.plain).flatMap ObjRef.objs = objs := by
      simp [List.flatMap_map, ObjRef.plain, ObjRef.objs]
    have made := (vouched.internPointer (.var ContextTable.emptyId this)).resolveObjs
      (described.symm ▸ vouches)
    exact (made.pushPoints _ _).leads (resolveObjs_hush _ _).handler

theorem seedParam (body : Body) (i : Nat) (vouches : P.Vouches s.handler o) :
    s.Leads P (s.seedParam body i o) := by
  unfold State.seedParam
  split
  · exact vouched.refl
  · exact ⟨((vouched.internPointer _).seed _ vouches).toVouched, P.refl _⟩

theorem seedInside (ptr : Pointer) {base : Obj} (first : P.Vouches s.handler base)
    (second : P.Vouches s.handler o) :
    s.Leads P (((s.internDescribed ContextTable.emptyId base).1.internPointer ptr).1.seed
      ((s.internDescribed ContextTable.emptyId base).1.internPointer ptr).2 o) :=
  ⟨(((vouched.internDescribed _ first).internPointer _).seed _ second).toVouched, P.refl _⟩

theorem enter {entry : EntryPoint} (vouches : ∀ o ∈ entry.objs, P.Vouches s.handler o) :
    s.Leads P (s.enter cx entry) := by
  obtain ⟨this, params, fields, elements⟩ := EntryPoint.forall_mem_objs.mp vouches
  have noted : s.Leads P (s.noting entry.method) := ⟨{ vouched with }, P.refl _⟩
  have reached := noted.trans
    (noted.toVouched.reach (s.internMethod ContextTable.emptyId entry.method).2)
  cases code : cx.program.body? entry.method with
  | none =>
    rw [enter_bare s code]
    exact reached
  | some body =>
    rw [enter_body s code]
    -- what was vouched for before the method was reached still is
    refine seedAll_induct (motive := s.Leads P) (reached.trans (reached.toVouched.seedThis body fun o member =>
      P.later reached.later (this o member))) (fun t led a member => ?_) (fun t led a member => ?_)
      fun t led a member => ?_
    · exact led.trans (led.toVouched.seedParam body a.1 (P.later led.later (params a member)))
    · obtain ⟨base, obj⟩ := fields a member
      exact led.trans (led.toVouched.seedInside _ (P.later led.later base) (P.later led.later obj))
    · obtain ⟨array, obj⟩ := elements a member
      exact led.trans (led.toVouched.seedInside _ (P.later led.later array) (P.later led.later obj))

theorem addCall (kind : CallKind) (context : ContextId) (site : StmtRef) (callee : MethodId)
    (receiver : Option CsObjId) : s.Leads P (s.addCall cx kind context site callee receiver) := by
  unfold State.addCall
  dsimp only
  split
  · exact ⟨{ vouched with }, P.refl _⟩
  · exact ⟨{ vouched with }, P.refl _⟩

theorem apply {c : Command} (vouches : ∀ o ∈ c.objs, P.Vouches s.handler o)
    (carries : ∀ label, c.label? = some label → P.Carries label) : s.Leads P (s.apply cx c) := by
  cases c with
  | addPointsTo pointer refs =>
    obtain ⟨first, second⟩ := List.forall_mem_append.mp vouches
    have placed := vouched.resolvePointer first
    have same := (resolvePointer_hush s pointer).handler
    have made := placed.resolveObjs (same.symm ▸ second)
    exact (made.pushPoints _ _).leads ((resolveObjs_hush _ refs).handler.trans same)
  | addEntryPoint entry => exact vouched.enter vouches
  | addFilter pointer keep =>
    have placed := vouched.resolvePointer vouches
    have same := (resolvePointer_hush s pointer).handler
    simp only [State.apply]
    split
    · split
      · exact ⟨{ placed with }, same ▸ P.refl _⟩
      · exact ⟨{ placed with }, same ▸ P.refl _⟩
    · exact ⟨{ placed with }, same ▸ P.refl _⟩
  | addFlow label source target =>
    obtain ⟨first, second⟩ := List.forall_mem_append.mp vouches
    have same := (resolvePointer_hush s source).handler
    have ends := (vouched.resolvePointer first).resolvePointer (same.symm ▸ second)
    exact (ends.addFlow (by rw [FlowEdge.label_mk]; exact carries label rfl)).leads
      (((addFlow_hush _ _).handler.trans (resolvePointer_hush _ target).handler).trans same)
  | addCall kind context site callee receiver =>
    cases receiver with
    | none => exact vouched.addCall kind context site callee none
    | some r =>
      have made := vouched.resolveObj (r := r) fun o member => vouches o (by simpa [Command.objs] using member)
      have led : s.Leads P (s.resolveObj r).1 := made.leads (resolveObj_hush s r).handler
      exact led.trans (made.addCall kind context site callee _)
  | propagate pointer =>
    have placed := vouched.resolvePointer vouches
    have same := (resolvePointer_hush s pointer).handler
    simp only [State.apply]
    split
    · exact (placed.sendAll _ _).leads ((sendAll_hush _ _ _).handler.trans same)
    · exact placed.leads same

theorem endPhase : s.Leads P (s.endPhase cx) := by
  obtain ⟨facts, queue, handler⟩ := endPhase_asleep s cx (P.sleeps _ _ s.handler vouched.good)
  have trim := lateRemovals_trims s
  refine Vouched.leads ⟨fun id o found => ?_, fun id e edge => ?_, ?_, ?_⟩ handler
  · rw [facts, trim.heap] at found
    rw [handler]
    exact vouched.objects id o found
  · rw [facts, trim.flow] at edge
    exact vouched.edges id e edge
  · rw [queue, handler]
    exact vouched.queued
  · rw [handler]
    exact vouched.good

end Vouched

end State

namespace Solver

variable {σ : Type u} {cx : Setup σ} {P : Voucher cx} {s t : State σ} {policy : Policy} {heap : Heap}
  {handler : σ}

theorem Step.leads (step : Step cx policy s t) (vouched : s.Vouched P) : s.Leads P t := by
  cases step with
  | command queue =>
    rename_i c rest
    have waits : ∀ d ∈ c :: rest, (∀ o ∈ d.objs, P.Vouches s.handler o) ∧
        ∀ label, d.label? = some label → P.Carries label := queue ▸ vouched.queued
    obtain ⟨first, others⟩ := List.forall_mem_cons.mp waits
    have popped : s.Leads P (s.popping rest) := ⟨{ vouched with queued := others }, P.refl _⟩
    exact popped.trans (popped.toVouched.apply first.1 first.2)
  | call queue allowed taken =>
    rename_i e worklist
    have left : s.Leads P (s.taking worklist) := ⟨{ vouched with }, P.refl _⟩
    exact left.trans (left.toVouched.processCall e)
  | points queue allowed taken =>
    rename_i q set worklist
    have left : s.Leads P (s.taking worklist) := ⟨{ vouched with }, P.refl _⟩
    exact left.trans (left.toVouched.processPoints q set)
  | phase queue idle more => exact vouched.endPhase

theorem Visits.leads (visited : Visits cx s t) (vouched : s.Vouched P) : s.Leads P t := by
  induction visited with
  | here => exact vouched.refl
  | next _ stepped ih => exact ih.trans ((step_running stepped).leads ih.toVouched)

theorem start_vouched (good : P.Good handler) (blank : ∀ id o, heap.get? id = some o → o.isTaint = false) :
    (start cx heap handler).Vouched P := by
  have first : State.Vouched P ({ heap, handler } : State σ) :=
    ⟨fun id o found => P.clean _ o (blank id o found), fun id e edge => by simp [EdgeStore.edge?] at edge,
      List.forall_mem_nil _, good⟩
  exact (first.notify .started).toVouched

end Solver

end PointsTo
