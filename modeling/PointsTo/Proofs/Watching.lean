import PointsTo.Proofs.Progress
import PointsTo.Proofs.Schedule

/-!
Watching a run. The watched handler reacts as it would alone and keeps a record of what it is told.
Nothing in a run depends on the state of the handler but what the handler answers, so a watched run
is the run itself with the record added.
-/
namespace PointsTo

/-- What a handler is told, with the facts it sees and the state it is in when it is told. -/
structure Moment (σ : Type u) where
  event : Event
  facts : Facts
  handler : σ

/-- A handler with a record of all it was told, the oldest first. -/
abbrev Watched (σ : Type u) := σ × List (Moment σ)

def Handlers.watched (h : Handlers σ) : Handlers (Watched σ) where
  react e f s := (h.react e f s.1).map fun next => (next, s.2 ++ [⟨e, f, s.1⟩])
  phaseEnd f n s :=
    let r := h.phaseEnd f n s.1
    { toReaction := r.toReaction.map fun next => (next, s.2), removals := r.removals }

def Setup.watched (cx : Setup σ) : Setup (Watched σ) := ⟨cx.program, cx.selector, cx.handlers.watched⟩

namespace State

variable {σ : Type u} {τ : Type v}

/-- The state with the handler seen through a function. -/
def map (g : σ → τ) (s : State σ) : State τ where
  toFacts := s.toFacts
  worklist := s.worklist
  queue := s.queue
  seen := s.seen
  refilter := s.refilter
  stats := s.stats
  handler := g s.handler

@[simp] theorem map_toFacts (g : σ → τ) (s : State σ) : (s.map g).toFacts = s.toFacts := rfl

variable (g : σ → τ) (s : State σ)

theorem map_foldl {α : Type w} {f : State σ → α → State σ} {f' : State τ → α → State τ}
    (step : ∀ s a, f' (s.map g) a = (f s a).map g) (items : List α) :
    items.foldl f' (s.map g) = (items.foldl f s).map g :=
  List.foldl_hom (State.map g) step

theorem map_resolveObj (r : ObjRef) :
    (s.map g).resolveObj r = ((s.resolveObj r).1.map g, (s.resolveObj r).2) := by
  cases r <;> rfl

theorem map_resolveObjs (rs : List ObjRef) :
    (s.map g).resolveObjs rs = ((s.resolveObjs rs).1.map g, (s.resolveObjs rs).2) := by
  induction rs generalizing s with
  | nil => rfl
  | cons r rest ih => simp only [resolveObjs, map_resolveObj, ih]

theorem map_resolvePointer (r : PointerRef) :
    (s.map g).resolvePointer r = ((s.resolvePointer r).1.map g, (s.resolvePointer r).2) := by
  cases r with
  | field base f | element array =>
    simp only [resolvePointer, map_resolveObj]
    rfl
  | _ => rfl

theorem map_transferAll (t : Transfer) (objs : List CsObjId) :
    (s.map g).transferAll t objs = ((s.transferAll t objs).1.map g, (s.transferAll t objs).2) := by
  induction objs generalizing s with
  | nil => rfl
  | cons o rest ih =>
    have made : ∀ c obj, (s.map g).internDescribed c obj =
        ((s.internDescribed c obj).1.map g, (s.internDescribed c obj).2) := fun _ _ => rfl
    simp only [transferAll, map_toFacts, made, ih]
    split
    · split <;> rfl
    · rfl

theorem map_flowOver (p : Program) (id : EdgeId) (set : ObjSet) :
    (s.map g).flowOver p id set = ((s.flowOver p id set).1.map g, (s.flowOver p id set).2) := by
  simp only [flowOver, map_toFacts, map_transferAll]
  split
  · rfl
  · rfl
  · split <;> rfl
  · rfl
  · rfl

theorem map_send (p : Program) (set : ObjSet) (id : EdgeId) :
    (s.map g).send p set id = (s.send p set id).map g := by
  simp only [send, map_flowOver, map_toFacts]
  split <;> rfl

theorem map_sendAll (p : Program) (q : PointerId) (set : ObjSet) :
    (s.map g).sendAll p q set = (s.sendAll p q set).map g :=
  map_foldl g s (fun s id => map_send g s p set id) _

theorem map_addFlow (p : Program) (e : FlowEdge) : (s.map g).addFlow p e = (s.addFlow p e).map g := by
  unfold addFlow
  rw [map_toFacts]
  obtain ⟨flow, sent⟩ := s.flow.add e
  cases sent with
  | none => rfl
  | some id =>
    dsimp only
    cases s.elements.pts? e.source with
    | none => rfl
    | some pts =>
      dsimp only
      by_cases none : pts.isEmpty = true
      · rw [if_pos none, if_pos none]
        rfl
      · rw [if_neg none, if_neg none]
        exact map_send g { s with flow } p pts id

theorem map_link (p : Program) (kind : FlowKind) (a b : Pointer) :
    (s.map g).link p kind a b = (s.link p kind a b).map g :=
  map_addFlow g ((s.internPointer a).1.internPointer b).1 p _

theorem map_passReceiver (base this : PointerId) (receiver : CsObjId) :
    (s.map g).passReceiver base this receiver = (s.passReceiver base this receiver).map g := by
  unfold passReceiver
  rw [map_toFacts]
  obtain ⟨flow, made⟩ := s.flow.add (FlowEdge.plain .thisPassing base this)
  dsimp only
  cases made.or (flow.find? .thisPassing base this) with
  | none => rfl
  | some id =>
    dsimp only
    obtain ⟨flow, fresh⟩ := flow.allow id receiver
    cases fresh <;> rfl

theorem map_accessKind (p : Program) (context : ContextId) (stmts : List (StmtRef × Stmt))
    (o : CsObjId) (kind : FlowKind) :
    (s.map g).accessKind p context stmts o kind = (s.accessKind p context stmts o kind).map g := by
  refine map_foldl g s (fun s entry => ?_) stmts
  dsimp only
  split
  · split
    · exact map_link g s _ _ _ _
    · rfl
  · rfl

theorem map_accessAll (p : Program) (context : ContextId) (stmts : List (StmtRef × Stmt))
    (o : CsObjId) : (s.map g).accessAll p context stmts o = (s.accessAll p context stmts o).map g :=
  map_foldl g s (fun s kind => map_accessKind g s p context stmts o kind) _

theorem map_passArguments (p : Program) (caller : ContextId) (call : Invoke) (callee : ContextId)
    (body : Body) :
    (s.map g).passArguments p caller call callee body =
      (s.passArguments p caller call callee body).map g := by
  unfold passArguments
  dsimp only
  rw [map_foldl g s (fun s pair => map_link g s _ _ _ _)]
  split
  · rfl
  · exact map_foldl g _ (fun s r => map_link g s _ _ _ _) _

theorem map_seedThis (body : Body) (objs : List Obj) :
    (s.map g).seedThis body objs = (s.seedThis body objs).map g := by
  unfold seedThis
  split
  · rfl
  · next this _ =>
    have interned : (s.map g).internPointer (.var ContextTable.emptyId this) =
        ((s.internPointer (.var ContextTable.emptyId this)).1.map g,
          (s.internPointer (.var ContextTable.emptyId this)).2) := rfl
    rw [interned]
    dsimp only
    rw [map_resolveObjs]
    rfl

theorem map_seedParam (body : Body) (i : Nat) (o : Obj) :
    (s.map g).seedParam body i o = (s.seedParam body i o).map g := by
  unfold seedParam
  split <;> rfl

theorem map_seedAll (body : Body) (entry : EntryPoint) :
    (s.map g).seedAll body entry = (s.seedAll body entry).map g := by
  unfold seedAll
  rw [map_seedThis, map_foldl g _ (fun t a => map_seedParam g t body a.1 a.2),
    map_foldl g _ (f := fun t a => t.seedField a.1 a.2.1 a.2.2) (fun _ _ => rfl)]
  exact map_foldl g _ (fun _ _ => rfl) entry.elements

end State

def State.plain (s : State (Watched σ)) : State σ := s.map Prod.fst

namespace State

variable {σ : Type u} (cx : Setup σ) (s : State (Watched σ))

theorem plain_notify (e : Event) : (s.notify cx.watched e).plain = s.plain.notify cx e := rfl

theorem plain_callOn (context : ContextId) (base : PointerId) (site : StmtRef) (call : Invoke)
    (o : CsObjId) :
    (s.callOn cx.watched context base site call o).plain = s.plain.callOn cx context base site call o := by
  have facts : s.plain.toFacts = s.toFacts := rfl
  have program : cx.watched.program = cx.program := rfl
  unfold callOn
  rw [facts, program]
  cases s.elements.obj? o with
  | none => rfl
  | some entry =>
    cases s.obj? o with
    | none => rfl
    | some obj =>
      dsimp only
      by_cases null : obj.ty = .null
      · rw [if_pos null, if_pos null]
      · rw [if_neg null, if_neg null]
        cases cx.program.callee? call obj.ty with
        | none => rfl
        | some callee =>
          dsimp only
          cases cx.program.this? callee with
          | none => rfl
          | some this => exact (map_passReceiver Prod.fst _ _ _ _).symm

theorem plain_callOnAll (context : ContextId) (base : PointerId) (site : StmtRef) (call : Invoke)
    (delta : ObjSet) :
    (s.callOnAll cx.watched context base site call delta).plain =
      s.plain.callOnAll cx context base site call delta :=
  (map_foldl Prod.fst (s.internSite context site).1 (fun s o => (plain_callOn cx s _ _ _ _ o).symm) _).symm

theorem plain_callStatic (context : ContextId) (site : StmtRef) (call : Invoke) :
    (s.callStatic cx.watched context site call).plain = s.plain.callStatic cx context site call := by
  have program : cx.watched.program = cx.program := rfl
  unfold callStatic
  rw [program]
  cases cx.program.resolve? call.target <;> rfl

theorem plain_useDelta (context : ContextId) (v : VarId) (q : PointerId) (delta : ObjSet) :
    (s.useDelta cx.watched context v q delta).plain = s.plain.useDelta cx context v q delta := by
  have accessed : delta.toList.foldl
      (fun t o => t.accessAll cx.program context (s.basedOn cx.program v) o) s.plain = _ :=
    map_foldl Prod.fst s (fun t o => map_accessAll Prod.fst t _ context _ o) delta.toList
  unfold useDelta
  dsimp only
  rw [show s.plain.basedOn cx.program v = s.basedOn cx.program v from rfl, accessed]
  refine (map_foldl Prod.fst _ ?_ _).symm
  rintro t ⟨site, stmt⟩
  cases stmt with
  | invoke call => exact (plain_callOnAll cx t _ _ _ _ _).symm
  | _ => rfl

theorem plain_runStmt (context : ContextId) (site : StmtRef) (stmt : Stmt) :
    (s.runStmt cx.watched context site stmt).plain = s.plain.runStmt cx context site stmt := by
  cases stmt with
  | literal lhs value => cases value <;> rfl
  | copy lhs rhs | loadStatic lhs f | storeStatic f rhs => exact (map_link _ s _ _ _ _).symm
  | cast lhs rhs ty => exact (map_addFlow Prod.fst
      ((s.internPointer (.var context rhs)).1.internPointer (.var context lhs)).1 _ _).symm
  | invoke call =>
    simp only [runStmt]
    split
    · exact plain_callStatic cx s context site call
    · rfl
  | _ => rfl

theorem plain_registerMethod (m : MethodId) :
    (s.registerMethod cx.watched m).plain = s.plain.registerMethod cx m := by
  unfold registerMethod
  rw [show s.plain.seen = s.seen from rfl]
  split
  · rfl
  · exact (map_foldl Prod.fst (State.notify { s with seen := s.seen ++ [m] } cx.watched (.methodReached m))
      (fun _ _ => rfl) _).symm

theorem plain_runAll (context : ContextId) (stmts : List (StmtRef × Stmt)) :
    (stmts.foldl (fun t (site, stmt) => t.runStmt cx.watched context site stmt) s).plain =
      stmts.foldl (fun t (site, stmt) => t.runStmt cx context site stmt) s.plain :=
  (List.foldl_hom State.plain fun t a => (plain_runStmt cx t context a.1 a.2).symm).symm

theorem plain_reach (id : CsMethodId) : (s.reach cx.watched id).plain = s.plain.reach cx id := by
  unfold reach
  rw [show s.plain.toFacts = s.toFacts from rfl]
  obtain ⟨calls, fresh⟩ := s.calls.addReachable id
  cases fresh with
  | false => rfl
  | true =>
    dsimp only
    rw [if_pos rfl, if_pos rfl]
    cases s.elements.method? id with
    | none => rfl
    | some x =>
      have registered := plain_registerMethod cx { s with calls } x.2
      have ran := plain_runAll cx (State.registerMethod { s with calls } cx.watched x.2) x.1
        (cx.program.stmtRefs x.2)
      rw [registered] at ran
      exact congrArg (State.notify · cx (.csMethodReached id)) ran

theorem plain_passing (e : CallEdge) : (s.passing cx.watched e).plain = s.plain.passing cx e := by
  have program : cx.watched.program = cx.program := rfl
  unfold passing
  rw [show s.plain.toFacts = s.toFacts from rfl, program]
  split
  · rfl
  · cases s.elements.site? e.site with
    | none => rfl
    | some site =>
      cases s.elements.method? e.callee with
      | none => rfl
      | some callee =>
        dsimp only
        cases cx.program.invoke? site.2 with
        | none => rfl
        | some call =>
          cases cx.program.body? callee.2 with
          | none => rfl
          | some body => exact (map_passArguments Prod.fst s _ _ _ _ _).symm

theorem plain_processCall (e : CallEdge) :
    (s.processCall cx.watched e).plain = s.plain.processCall cx e := by
  by_cases known : e ∈ s.calls.edges
  · rw [processCall_known known, processCall_known (s := s.plain) known]
  · rw [processCall_new known, processCall_new (s := s.plain) known, plain_notify, plain_passing,
      plain_reach]
    rfl

theorem plain_applying (q : PointerId) (delta : ObjSet) :
    (s.applying cx.watched q delta).plain = s.plain.applying cx q delta := by
  unfold applying
  rw [show s.plain.toFacts = s.toFacts from rfl]
  cases s.elements.pointer? q with
  | none => rfl
  | some ptr =>
    cases ptr with
    | var context v => exact plain_useDelta cx s context v q delta
    | _ => rfl

theorem plain_processPoints (q : PointerId) (set : ObjSet) :
    (s.processPoints cx.watched q set).plain = s.plain.processPoints cx q set := by
  have filled : s.plain.filled q set = (s.filled q set).plain := rfl
  have sent := map_sendAll Prod.fst (s.filled q set) cx.program q (s.news q set)
  rw [processPoints_eq, processPoints_eq, show s.plain.news q set = s.news q set from rfl, filled]
  split
  · rfl
  · rw [plain_notify, plain_applying]
    exact congrArg (fun t => (State.applying t cx q (s.news q set)).notify cx (.arrived q (s.news q set)))
      sent.symm

theorem plain_enter (entry : EntryPoint) :
    (s.enter cx.watched entry).plain = s.plain.enter cx entry := by
  have named : s.plain.internMethod ContextTable.emptyId entry.method =
      ((s.internMethod ContextTable.emptyId entry.method).1.plain,
        (s.internMethod ContextTable.emptyId entry.method).2) := rfl
  unfold enter
  rw [named]
  obtain ⟨t, id⟩ := s.internMethod ContextTable.emptyId entry.method
  have reached := plain_reach cx { t with calls := t.calls.addEntry id } id
  dsimp only
  rw [show cx.watched.program = cx.program from rfl,
    show ({ t.plain with calls := t.plain.calls.addEntry id } : State σ) =
      State.plain { t with calls := t.calls.addEntry id } from rfl, ← reached]
  generalize State.reach _ cx.watched id = u
  cases cx.program.body? entry.method with
  | none => rfl
  | some body => exact (map_seedAll Prod.fst u body entry).symm

theorem plain_addCall (kind : CallKind) (context : ContextId) (site : StmtRef) (callee : MethodId)
    (receiver : Option CsObjId) :
    (s.addCall cx.watched kind context site callee receiver).plain =
      s.plain.addCall cx kind context site callee receiver := by
  unfold addCall
  rw [show s.plain.toFacts = s.toFacts from rfl, show cx.watched.program = cx.program from rfl]
  cases receiver with
  | none => rfl
  | some o => cases cx.program.this? callee <;> rfl

theorem plain_apply (c : Command) : (s.apply cx.watched c).plain = s.plain.apply cx c := by
  have program : cx.watched.program = cx.program := rfl
  cases c with
  | addPointsTo pointer objs =>
    simp only [apply, plain, map_resolvePointer, map_resolveObjs]
    rfl
  | addEntryPoint entry => exact plain_enter cx s entry
  | addFilter pointer keep =>
    simp only [apply, plain, map_resolvePointer]
    obtain ⟨t, q⟩ := s.resolvePointer pointer
    dsimp only
    rw [map_toFacts]
    cases (t.elements.addFilter q keep).pts? q with
    | none => rfl
    | some pts =>
      dsimp only
      split <;> rfl
  | addFlow label source target =>
    simp only [apply, plain, map_resolvePointer, map_addFlow, program]
  | addCall kind context site callee receiver =>
    cases receiver with
    | none => exact plain_addCall cx s kind context site callee none
    | some r =>
      simp only [apply]
      rw [plain_addCall, show s.plain.resolveObj r = _ from map_resolveObj Prod.fst s r]
      rfl
  | propagate pointer =>
    simp only [apply, plain, map_resolvePointer, program]
    obtain ⟨t, q⟩ := s.resolvePointer pointer
    dsimp only
    rw [map_toFacts]
    cases t.elements.pts? q with
    | none => rfl
    | some pts => exact (map_sendAll Prod.fst t _ q pts).symm

end State

namespace Solver

variable {σ : Type u} (cx : Setup σ)

def Progress.plain : Progress (Watched σ) → Progress σ
  | running s => .running s.plain
  | finished s => .finished s.plain

theorem plain_step (s : State (Watched σ)) : (step cx.watched s).plain = step cx s.plain := by
  unfold step
  obtain ⟨facts, worklist, queue, seen, refilter, stats, handler⟩ := s
  cases queue with
  | cons c rest =>
    exact congrArg Progress.running
      (State.plain_apply cx (State.popping ⟨facts, worklist, c :: rest, seen, refilter, stats, handler⟩ rest) c)
  | nil =>
    dsimp only [State.plain, State.map]
    cases worklist.poll? with
    | some taken =>
      obtain ⟨item, left⟩ := taken
      cases item with
      | call e =>
        exact congrArg Progress.running
          (State.plain_processCall cx ⟨facts, left, [], seen, refilter, _, handler⟩ e)
      | points q set =>
        exact congrArg Progress.running
          (State.plain_processPoints cx ⟨facts, left, [], seen, refilter, _, handler⟩ q set)
    | none =>
      dsimp only
      split
      · next ends => exact (if_pos ends).symm
      · next goesOn => exact (if_neg goesOn).symm

theorem plain_run (fuel : Nat) (s : State (Watched σ)) :
    (run cx.watched fuel s).map State.plain = run cx fuel s.plain := by
  induction fuel generalizing s with
  | zero => rfl
  | succ fuel ih =>
    unfold run
    rw [← plain_step]
    cases step cx.watched s with
    | finished t => rfl
    | running t => exact ih t

theorem plain_solve (fuel : Nat) (heap : Heap) (handler : σ) :
    (solve cx.watched fuel heap (handler, [])).map State.plain = solve cx fuel heap handler :=
  plain_run cx fuel _

end Solver

end PointsTo
