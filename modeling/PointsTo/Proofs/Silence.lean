import PointsTo.Proofs.Commands

/-!
Most of what the solver does goes on without the handler: a mute change tells it nothing, so it asks for
nothing. Carrying out statements, the solver murmurs: it makes calls, and tells of those without a
target.
-/
namespace PointsTo

namespace Facts

variable {f g : Facts} {p : Program} {call : Invoke} {c : ContextId} {site : StmtRef}
  {receiver : Option CsObjId}

def Joins (f : Facts) (e : CallEdge) : Prop :=
  (∃ x, f.elements.site? e.site = some x) ∧ ∃ x, f.elements.method? e.callee = some x

def Reaches (f : Facts) (c : ContextId) (m : MethodId) : Prop :=
  ∃ id ∈ f.calls.reachable, f.elements.method? id = some (c, m)

/-- A call has no target, on a receiver or without one. -/
def Missing (f : Facts) (p : Program) (call : Invoke) : Option CsObjId → Prop
  | none => call.base = none ∧ p.resolve? call.target = none
  | some o => ∃ v obj, call.base = some v ∧ f.obj? o = some obj ∧ obj.ty ≠ .null ∧
      p.callee? call obj.ty = none

/-- A call has no target at a place: without base in a method that is reachable, or on an object that
its base holds. -/
inductive Unresolved (f : Facts) (p : Program) (c : ContextId) (site : StmtRef) : Option CsObjId → Prop
  | static {call : Invoke} (stmt : p.stmt? site = some (.invoke call)) (missing : f.Missing p call none)
      (reaches : f.Reaches c site.method) : Unresolved f p c site none
  | on {call : Invoke} {o : CsObjId} {v : VarId} {q : PointerId}
      (stmt : p.stmt? site = some (.invoke call)) (missing : f.Missing p call (some o))
      (based : call.base = some v) (pointer : f.elements.pointer? q = some (.var c v))
      (held : f.elements.Holds q o) : Unresolved f p c site (some o)

theorem Extends.joins (grown : f.Extends g) {e : CallEdge} (joins : f.Joins e) : g.Joins e :=
  ⟨joins.1.imp fun _ => grown.sites _ _, joins.2.imp fun _ => grown.methods _ _⟩

theorem Extends.reaches (grown : f.Extends g) {m : MethodId} (reaches : f.Reaches c m) :
    g.Reaches c m := by
  obtain ⟨id, reachable, known⟩ := reaches
  exact ⟨id, grown.reachable id reachable, grown.methods _ _ known⟩

theorem Extends.missing (grown : f.Extends g) (missing : f.Missing p call receiver) :
    g.Missing p call receiver := by
  cases receiver with
  | none => exact missing
  | some o =>
    obtain ⟨v, obj, based, object, rest⟩ := missing
    exact ⟨v, obj, based, grown.obj? object, rest⟩

/-- On an object that is known already, a call had no target before. -/
theorem Extends.missing_before (grown : f.Extends g) {o : CsObjId} {d : ContextId × Obj}
    (known : f.describe? o = some d) (missing : g.Missing p call (some o)) :
    f.Missing p call (some o) := by
  obtain ⟨v, obj, based, object, rest⟩ := missing
  have before := obj?_of_describe? known
  obtain rfl := Option.some.inj ((grown.obj? before).symm.trans object)
  exact ⟨v, d.2, based, before, rest⟩

end Facts

namespace State

variable {σ : Type u} {p : Program} {s t u : State σ}

/-- A quiet change of which the handler hears nothing. -/
structure Mute (s t : State σ) : Prop extends s.Quiet t where
  handler : t.handler = s.handler
  asks : t.queue = s.queue
  enlisted : ∀ e ∈ t.worklist.calls, e ∈ s.worklist.calls ∨ t.Joins e

theorem Mute.refl (s : State σ) : s.Mute s := ⟨Quiet.refl s, rfl, rfl, fun _ known => Or.inl known⟩

theorem Mute.trans (first : s.Mute t) (second : t.Mute u) : s.Mute u where
  toQuiet := first.toQuiet.trans second.toQuiet
  handler := second.handler.trans first.handler
  asks := second.asks.trans first.asks
  enlisted := by
    intro e waiting
    rcases second.enlisted e waiting with before | joins
    · exact (first.enlisted e before).imp_right second.grown.joins
    · exact Or.inr joins

/-- A mute change in which nothing is called. -/
structure Hush (s t : State σ) : Prop extends s.Mute t where
  waits : t.worklist.calls = s.worklist.calls
  methods : t.elements.methods = s.elements.methods

theorem Hush.refl (s : State σ) : s.Hush s := ⟨Mute.refl s, rfl, rfl⟩

theorem Hush.trans (first : s.Hush t) (second : t.Hush u) : s.Hush u :=
  ⟨first.toMute.trans second.toMute, second.waits.trans first.waits,
    second.methods.trans first.methods⟩

theorem Quiet.hush (quiet : s.Quiet t) (handler : t.handler = s.handler) (asks : t.queue = s.queue)
    (waits : t.worklist.calls = s.worklist.calls) (methods : t.elements.methods = s.elements.methods) :
    s.Hush t :=
  ⟨⟨quiet, handler, asks, fun _ waiting => Or.inl (waits ▸ waiting)⟩, waits, methods⟩

section

variable (s : State σ)

theorem internPointer_hush (ptr : Pointer) : s.Hush (s.internPointer ptr).1 :=
  (internPointer_quiet s ptr).hush rfl rfl rfl (Elements.methods_internPointer _ _)

theorem internDescribed_hush (c : ContextId) (o : Obj) : s.Hush (s.internDescribed c o).1 :=
  (internDescribed_quiet s c o).hush rfl rfl rfl rfl

theorem pushPoints_hush (q : PointerId) (set : ObjSet) : s.Hush (s.pushPoints q set) :=
  (pushPoints_quiet s q set).hush rfl rfl (Worklist.calls_pushPoints _ _ _) rfl

theorem resolveObj_hush (r : ObjRef) : s.Hush (s.resolveObj r).1 := by
  cases r with
  | interned id => exact Hush.refl s
  | described c o => exact internDescribed_hush s c o

theorem resolveObjs_hush (rs : List ObjRef) : s.Hush (s.resolveObjs rs).1 := by
  induction rs generalizing s with
  | nil => exact Hush.refl s
  | cons r rest ih => exact (resolveObj_hush s r).trans (ih _)

theorem resolvePointer_hush (r : PointerRef) : s.Hush (s.resolvePointer r).1 := by
  cases r with
  | interned id => exact Hush.refl s
  | var c v | static f => exact internPointer_hush s _
  | field base f => exact (resolveObj_hush s base).trans (internPointer_hush _ _)
  | element array => exact (resolveObj_hush s array).trans (internPointer_hush _ _)

theorem send_hush (id : EdgeId) (set : ObjSet) : s.Hush (s.send p set id) :=
  send_keeps (flowOver_keeps set (Hush.refl s) fun _ _ _ _ _ _ _ _ _ _ hush _ _ =>
    hush.trans (internDescribed_hush _ _ _)) fun _ _ _ hush => hush.trans (pushPoints_hush _ _ _)

theorem sendAll_hush (q : PointerId) (set : ObjSet) : s.Hush (s.sendAll p q set) :=
  List.foldlRecOn _ _ (Hush.refl s) fun t hush id _ => hush.trans (send_hush t id set)

theorem addFlow_hush (e : FlowEdge) : s.Hush (s.addFlow p e) :=
  addFlow_keeps (Hush.refl s) ((pushEdge_quiet s e).hush rfl rfl rfl rfl) fun u id pts hush _ =>
    hush.trans (send_hush u id pts)

theorem link_hush (kind : FlowKind) (a b : Pointer) : s.Hush (s.link p kind a b) :=
  ((internPointer_hush s a).trans (internPointer_hush _ b)).trans (addFlow_hush _ _)

theorem passReceiver_hush (base this : PointerId) (receiver : CsObjId) :
    s.Hush (s.passReceiver base this receiver) := by
  obtain ⟨flow, worklist, calls, same⟩ := passReceiver_same s base this receiver
  have quiet := passReceiver_quiet s base this receiver
  rw [same] at quiet ⊢
  exact quiet.hush rfl rfl calls rfl

/-- The one way in which a call gets on the worklist. -/
theorem callTo_mute (cx : Setup σ) (kind : CallKind) (context : ContextId) (site : StmtRef)
    (receiver : Option Receiver) (callee : MethodId) :
    s.Mute (s.callTo cx kind context site receiver callee).1 where
  toQuiet := callTo_quiet s cx kind context site receiver callee
  handler := rfl
  asks := rfl
  enlisted := by
    intro e waiting
    rcases List.mem_append.mp waiting with before | last
    · exact Or.inl before
    · rw [List.mem_singleton.mp last]
      exact Or.inr ⟨⟨_, Table.get?_intern_self _ _⟩, _, Table.get?_intern_self _ _⟩

theorem accessAll_hush (context : ContextId) (stmts : List (StmtRef × Stmt)) (o : CsObjId) :
    s.Hush (s.accessAll p context stmts o) :=
  accessAll_induct (Hush.refl s) fun t hush _ _ kind a b _ => hush.trans (link_hush t kind a b)

theorem passing_hush (cx : Setup σ) (e : CallEdge) : s.Hush (s.passing cx e) :=
  passing_keeps (Hush.refl s) fun t kind a b hush => hush.trans (link_hush t kind a b)

theorem seed_hush (q : PointerId) (o : Obj) : s.Hush (s.seed q o) :=
  (internDescribed_hush s _ o).trans (pushPoints_hush _ _ _)

theorem seedParam_hush (body : Body) (i : Nat) (o : Obj) : s.Hush (s.seedParam body i o) := by
  unfold seedParam
  split
  · exact Hush.refl s
  · exact (internPointer_hush s _).trans (seed_hush _ _ _)

theorem seedThis_hush (body : Body) (objs : List Obj) : s.Hush (s.seedThis body objs) := by
  unfold seedThis
  split
  · exact Hush.refl s
  · exact ((internPointer_hush s _).trans (resolveObjs_hush _ _)).trans (pushPoints_hush _ _ _)

theorem seedAll_hush (body : Body) (entry : EntryPoint) : s.Hush (s.seedAll body entry) := by
  -- fields and elements are seeded alike: the base is interned, then the pointer, then the object
  have placed : ∀ (t : State σ) c base ptr o,
      t.Hush (((t.internDescribed c base).1.internPointer ptr).1.seed
        ((t.internDescribed c base).1.internPointer ptr).2 o) := fun t c base ptr o =>
    ((internDescribed_hush t c base).trans (internPointer_hush _ ptr)).trans (seed_hush _ _ o)
  exact seedAll_induct (motive := s.Hush) (seedThis_hush s body entry.thisObjs)
    (fun t hush a _ => hush.trans (seedParam_hush t body a.1 a.2))
    (fun t hush a _ => hush.trans (placed t _ _ _ _)) fun t hush a _ => hush.trans (placed t _ _ _ _)

theorem addCall_mute (cx : Setup σ) (kind : CallKind) (context : ContextId) (site : StmtRef) (callee : MethodId)
    (receiver : Option CsObjId) : s.Mute (s.addCall cx kind context site callee receiver) := by
  unfold addCall
  dsimp only
  split
  · exact (callTo_mute s cx _ _ _ _ _).trans ((internPointer_hush _ _).trans (pushPoints_hush _ _ _)).toMute
  · exact callTo_mute s cx _ _ _ _ _

theorem enter_hush (cx : Setup σ) (entry : EntryPoint) :
    ((s.noting entry.method).reach cx (s.internMethod ContextTable.emptyId entry.method).2).Hush
      (s.enter cx entry) := by
  cases code : cx.program.body? entry.method with
  | none =>
    rw [enter_bare s code]
    exact Hush.refl _
  | some body =>
    rw [enter_body s code]
    exact seedAll_hush _ body entry

end

/-- The state in which a pointer has one filter more. -/
def attaching (s : State σ) (q : PointerId) (keep : Obj → Bool) : State σ :=
  { s with elements := s.elements.addFilter q keep }

section

variable (s : State σ) (cx : Setup σ) (c : Command) (entry : ∀ entry, c ≠ .addEntryPoint entry)
  (filter : ∀ q keep, c ≠ .addFilter q keep)

include entry filter

/-- Entry points are told of, filters touch a slot, and calls are made on request. -/
theorem apply_hush (call : ∀ kind context site callee receiver, c ≠ .addCall kind context site callee receiver) :
    s.Hush (s.apply cx c) := by
  cases c with
  | addPointsTo pointer objs =>
    exact ((resolvePointer_hush s pointer).trans (resolveObjs_hush _ objs)).trans (pushPoints_hush _ _ _)
  | addEntryPoint e => exact absurd rfl (entry e)
  | addFilter pointer keep => exact absurd rfl (filter pointer keep)
  | addFlow label source target =>
    exact ((resolvePointer_hush s source).trans (resolvePointer_hush _ target)).trans (addFlow_hush _ _)
  | addCall kind context site callee receiver => exact absurd rfl (call kind context site callee receiver)
  | propagate pointer =>
    have resolved := resolvePointer_hush s pointer
    simp only [apply]
    split
    · exact resolved.trans (sendAll_hush _ _ _)
    · exact resolved

theorem apply_mute : s.Mute (s.apply cx c) := by
  cases c with
  | addCall kind context site callee receiver =>
    cases receiver with
    | none => exact addCall_mute s cx kind context site callee none
    | some r => exact (resolveObj_hush s r).toMute.trans (addCall_mute _ cx kind context site callee _)
  | _ => exact (apply_hush s cx _ entry filter (by simp)).toMute

end

/-- A change in which calls are made at certain places, and the handler may hear that a call has no
target there on one of certain receivers. -/
inductive Murmurs (cx : Setup σ) (place : ContextId → StmtRef → Prop) (on : CsObjId → Prop) :
    State σ → State σ → Prop
  | hush {s t : State σ} (hush : s.Hush t) : Murmurs cx place on s t
  | calls (s : State σ) (kind : CallKind) {context : ContextId} {site : StmtRef}
      (receiver : Option Receiver) (callee : MethodId) (here : place context site) :
      Murmurs cx place on s (s.callTo cx kind context site receiver callee).1
  | unresolved (s : State σ) {receiver : Option CsObjId} {c : ContextId} {site : StmtRef} {call : Invoke}
      (here : place c site) (among : ∀ o ∈ receiver, on o)
      (stmt : cx.program.stmt? site = some (.invoke call)) (missing : s.Missing cx.program call receiver) :
      Murmurs cx place on s (s.notify cx (.unresolved receiver c site))
  | trans {s t u : State σ} (first : Murmurs cx place on s t) (second : Murmurs cx place on t u) :
      Murmurs cx place on s u

section Murmurs

variable {cx : Setup σ} {place : ContextId → StmtRef → Prop} {on : CsObjId → Prop} {s t : State σ} {call : Invoke}
  {v : VarId}

theorem Murmurs.quiet (murmurs : s.Murmurs cx place on t) : s.Quiet t := by
  induction murmurs with
  | hush hush => exact hush.toQuiet
  | calls s kind receiver callee => exact callTo_quiet s cx kind _ _ receiver callee
  | unresolved s => exact notify_quiet s cx _
  | trans _ _ first second => exact first.trans second

theorem foldl_murmurs {α : Type v} {f : State σ → α → State σ} (items : List α) (s : State σ)
    (each : ∀ t : State σ, ∀ a ∈ items, t.Murmurs cx place on (f t a)) :
    s.Murmurs cx place on (items.foldl f s) :=
  List.foldlRecOn items f (.hush (Hush.refl s)) fun t murmurs a member =>
    murmurs.trans (each t a member)

variable {context : ContextId} {site : StmtRef}

theorem callOn_murmurs (s : State σ) (base : PointerId) {receiver : CsObjId} (here : place context site)
    (among : on receiver) (stmt : cx.program.stmt? site = some (.invoke call)) (based : call.base = some v) :
    s.Murmurs cx place on (s.callOn cx context base site call receiver) := by
  unfold callOn
  split
  · next obj _ object =>
    split
    · exact .hush (Hush.refl s)
    · next real =>
      split
      · next missing =>
        refine .unresolved s here (fun o same => ?_) stmt ⟨v, obj, based, object, real, missing⟩
        cases same
        exact among
      · next callee _ =>
        have called : ∀ r, s.Murmurs cx place on
            (s.callTo cx (.ofInvoke call.kind) context site r callee).1 := fun r => .calls s _ r callee here
        dsimp only
        split
        · exact called _
        · exact (called _).trans (.hush ((internPointer_hush _ _).trans (passReceiver_hush _ _ _ _)))
  · exact .hush (Hush.refl s)

theorem callOnAll_murmurs (s : State σ) (base : PointerId) {delta : ObjSet} (here : place context site)
    (among : ∀ o ∈ delta, on o) (stmt : cx.program.stmt? site = some (.invoke call)) (based : call.base = some v) :
    s.Murmurs cx place on (s.callOnAll cx context base site call delta) :=
  .trans (.hush ((internSite_quiet s context site).hush rfl rfl rfl rfl))
    (foldl_murmurs _ _ fun t o member => callOn_murmurs t base here (among o member) stmt based)

theorem applying_murmurs (s : State σ) (cx : Setup σ) (q : PointerId) (delta : ObjSet) :
    s.Murmurs cx (fun c site => ∃ v stmt, s.elements.pointer? q = some (.var c v) ∧
      site.method ∈ s.seen ∧ cx.program.stmt? site = some stmt ∧ stmt.base? = some v) (· ∈ delta)
      (s.applying cx q delta) := by
  unfold applying
  split
  · next context v known =>
    refine .trans (.hush (List.foldlRecOn _ _ (Hush.refl s) fun t hush o _ =>
      hush.trans (accessAll_hush t context _ o)))
      (foldl_murmurs _ _ fun t entry member => ?_)
    obtain ⟨site, stmt⟩ := entry
    obtain ⟨seen, there, based⟩ := mem_basedOn.mp member
    cases stmt with
    | invoke call =>
      exact callOnAll_murmurs t q ⟨v, _, known, seen, there, based⟩ (fun _ inside => inside) there based
    | _ => exact .hush (Hush.refl t)
  · exact .hush (Hush.refl s)

theorem runStmt_murmurs (s : State σ) {stmt : Stmt} (here : place context site)
    (there : cx.program.stmt? site = some stmt) :
    s.Murmurs cx place on (s.runStmt cx context site stmt) := by
  cases stmt with
  | new lhs ty =>
    have made := (internObj_quiet s (s.heap.rules.allocated site ty)).trans
      (selectHeap_quiet _ cx context site.method)
    refine .hush ((Hush.trans ?_ (internPointer_hush _ _)).trans (pushPoints_hush _ _ _))
    exact (made.trans (internCsObj_quiet _ _ _)).hush rfl rfl rfl rfl
  | literal lhs value =>
    have named := (internDescribed_hush s ContextTable.emptyId (s.heap.rules.constant value)).trans
      (internPointer_hush _ (.var context lhs))
    cases value with
    | str text => exact .hush (named.trans (pushPoints_hush _ _ _))
    | cls ty => exact .hush (named.trans (pushPoints_hush _ _ _))
    | null | int _ | float _ => exact .hush (Hush.refl s)
  | copy lhs rhs | loadStatic lhs f | storeStatic f rhs => exact .hush (link_hush s _ _ _)
  | cast lhs rhs ty =>
    exact .hush (((internPointer_hush s _).trans (internPointer_hush _ _)).trans (addFlow_hush _ _))
  | invoke call =>
    simp only [runStmt, callStatic]
    split
    · next static =>
      split
      · next missing =>
        exact .unresolved s here (by simp) there ⟨Option.isNone_iff_eq_none.mp static, missing⟩
      · exact .calls s _ none _ here
    · exact .hush (Hush.refl s)
  | _ => exact .hush (Hush.refl s)

theorem runAll_murmurs (s : State σ) (cx : Setup σ) (context : ContextId) (m : MethodId) :
    s.Murmurs cx (fun c site => c = context ∧ site.method = m) (fun _ => False)
      ((cx.program.stmtRefs m).foldl (fun t (site, stmt) => t.runStmt cx context site stmt) s) := by
  refine foldl_murmurs _ _ fun t entry member => ?_
  obtain ⟨here, there⟩ := Program.mem_stmtRefs.mp member
  exact runStmt_murmurs t ⟨rfl, here⟩ there

end Murmurs

end State

end PointsTo
