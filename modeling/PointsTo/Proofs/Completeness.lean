import PointsTo.Proofs.PhaseEnd
import PointsTo.Proofs.Schedule

/-!
When a run is over, every flow edge has done its work: what lies at its source and may cross it is at
its target, unless a filter there refuses it. Handlers may only name handles they were given and take no
objects away.
-/
namespace PointsTo

namespace State

variable {σ : Type u} {s : State σ} {worklist : Worklist} {p : Program}

theorem start_handles (cx : Setup σ) (heap : Heap) (handler : σ) :
    (Solver.start cx heap handler).Handles := by
  refine (notify_safe (p := cx.program) _ cx .started).handles ⟨?_, ?_, ?_, ?_⟩
  · rintro q o ⟨set, found, _⟩
    simp [Elements.pts?] at found
  · rintro q o ⟨set, member, _⟩
    cases member
  · intro id e edge
    simp [EdgeStore.edge?] at edge
  · intro r member
    cases member

theorem start_flows (cx : Setup σ) (heap : Heap) (handler : σ) :
    (Solver.start cx heap handler).Flows cx.program := by
  intro id e o edge
  simp [Solver.start, notify, EdgeStore.edge?] at edge

theorem Handles.taking (handles : s.Handles) {item : WorkItem} (taken : s.worklist.Takes item worklist) :
    (s.taking worklist).Handles :=
  ⟨handles.held, fun q o pending => handles.pending q o (taken.pending_before pending),
    handles.edges, handles.receivers⟩

theorem Flows.taking_call (flows : s.Flows p) {e : CallEdge} (taken : s.worklist.Takes (.call e) worklist) :
    (s.taking worklist).Flows p := by
  intro id edge o known held d crosses
  obtain ⟨o', described, delivered⟩ := flows id edge o known held d crosses
  refine ⟨o', described, ?_⟩
  rcases delivered with there | pending | refused
  · exact Or.inl there
  · exact Or.inr (Or.inl (taken.pending_call pending))
  · exact Or.inr (Or.inr refused)

theorem Flows.taking_points (flows : s.Flows p) {q : PointerId} {set : ObjSet}
    (taken : s.worklist.Takes (.points q set) worklist) : (s.taking worklist).FlowsBut p q set := by
  intro id edge o known held d crosses
  obtain ⟨o', described, delivered⟩ := flows id edge o known held d crosses
  refine ⟨o', described, ?_⟩
  rcases delivered with there | pending | refused
  · exact Or.inl (Or.inl there)
  · rcases taken.pending_points pending with still | inHand
    · exact Or.inl (Or.inr (Or.inl still))
    · exact Or.inr inHand
  · exact Or.inl (Or.inr (Or.inr refused))

end State

namespace Solver

variable {σ : Type u} {cx : Setup σ} {policy : Policy} {s : State σ}

theorem Step.delivers {t : State σ} (step : Step cx policy s t) (known : ∀ c ∈ s.queue, c.Known s.toFacts)
    (nothing : (cx.handlers.phaseEnd s.trimmed.1 s.trimmed.2 s.handler).removals = []) (handles : s.Handles)
    (flows : s.Flows cx.program) : t.Handles ∧ t.Flows cx.program := by
  cases step with
  | command queue =>
    rename_i c rest
    have named : c.Known s.toFacts := known c (by rw [queue]; exact List.mem_cons_self)
    have popped : s.Delivers cx.program (s.popping rest) :=
      State.delivers_of_same (Facts.Extends.refl _) rfl rfl rfl rfl
    have delivered := popped.trans (State.apply_delivers _ cx _ named)
    exact ⟨delivered.handles handles, delivered.flows handles flows⟩
  | call queue allowed taken =>
    rename_i e worklist
    have delivered := State.processCall_delivers (s.taking worklist) cx e
    have left := handles.taking taken
    exact ⟨delivered.handles left, delivered.flows left (flows.taking_call taken)⟩
  | points queue allowed taken =>
    refine State.processPoints_delivers ?_ ?_ (handles.taking taken) (flows.taking_points taken)
    · exact fun o member => (handles.pending _ o (taken.pending_set member)).1
    · exact fun o member => (handles.pending _ o (taken.pending_set member)).2
  | phase queue idle more =>
    have delivered := State.endPhase_delivers (p := cx.program) s cx nothing
    exact ⟨delivered.handles handles, delivered.flows handles flows⟩

theorem Visits.delivers {heap : Heap} {handler : σ}
    (known : ∀ t, Visits cx (start cx heap handler) t → ∀ c ∈ t.queue, c.Known t.toFacts)
    (nothing : ∀ t, Visits cx (start cx heap handler) t →
      ∀ f n, (cx.handlers.phaseEnd f n t.handler).removals = []) (visited : Visits cx (start cx heap handler) s) :
    s.Handles ∧ s.Flows cx.program := by
  induction visited with
  | here => exact ⟨State.start_handles cx heap handler, State.start_flows cx heap handler⟩
  | next visited stepped ih =>
    exact (step_running stepped).delivers (known _ visited) (nothing _ visited _ _) ih.1 ih.2

/-- When a run is over, whatever an edge lets through from its source and all filters of its target
let in is in the points-to set of the target. -/
theorem solve_completes_flow {fuel : Nat} {heap : Heap} {handler : σ} {s : State σ}
    (known : ∀ t, Visits cx (start cx heap handler) t → ∀ c ∈ t.queue, c.Known t.toFacts)
    (nothing : ∀ t, Visits cx (start cx heap handler) t →
      ∀ f n, (cx.handlers.phaseEnd f n t.handler).removals = [])
    (solved : solve cx fuel heap handler = some s) {id : EdgeId} {e : FlowEdge} {set : ObjSet}
    (edge : s.flow.edge? id = some e) (source : s.elements.pts? e.source = some set) {o : CsObjId}
    (crossed : o ∈ (s.flowOver cx.program id set).2)
    (accepted : ∀ keep ∈ s.elements.filters e.target,
      (s.flowOver cx.program id set).1.objSatisfies keep o = true) :
    ∃ pts, s.elements.pts? e.target = some pts ∧ o ∈ pts := by
  obtain ⟨u, visited, finishes⟩ := run_some solved
  obtain ⟨handles, flows⟩ := visited.delivers known nothing
  have ended := State.endPhase_delivers (p := cx.program) u cx (nothing u visited _ _)
  rw [← finishes.last] at ended
  have described : ∀ x ∈ set, ∃ d, s.describe? x = some d :=
    fun x member => (ended.handles handles).held e.source x ⟨set, source, member⟩
  have passage := State.flowOver_crossed (p := cx.program) edge described
  obtain ⟨x, member, d, crosses, meaning⟩ := passage.origin o crossed
  obtain ⟨o', meaning', delivered⟩ :=
    ended.flows handles flows id e x edge ⟨set, source, member⟩ d crosses
  -- one description, one handle
  obtain rfl := Facts.describe?_inj (passage.grown.describe? meaning') meaning
  rcases delivered with there | pending | ⟨obj, object, keep, attached, refusal⟩
  · exact there
  · rw [finishes.last] at pending
    exact absurd pending (WorkQueue.not_pending finishes.idle)
  · have satisfied := accepted keep attached
    obtain ⟨c, before⟩ := Facts.describe?_of_obj? object
    have same := Facts.obj?_of_describe? (passage.grown.describe? before)
    simp only [Facts.objSatisfies, same, refusal] at satisfied
    cases satisfied

end Solver

/-- A method without parameters and without a result; it is static unless it has a `this`. -/
def MethodDecl.routine (owner : ClassId) (name subsignature : String) (this : Option VarId) (vars : List VarId)
    (stmts : List Stmt) : MethodDecl :=
  ⟨name, owner, [], .void, ⟨this.isNone, false, false⟩, subsignature, some ⟨this, [], vars, stmts, [], []⟩⟩

/-- The method of a box that fills it. -/
def MethodDecl.put : MethodDecl where
  name := "put"
  owner := 1
  params := [.cls 0]
  ret := .void
  flags := ⟨false, false, false⟩
  subsignature := "void put(Object)"
  body := some ⟨some 0, [1], [0, 1], [.storeField 0 0 1], [], []⟩

/-- A box is filled by a call and read back. -/
def boxes : Program where
  classes := #[⟨"Object", none, [], false, false, true, [], []⟩,
    ⟨"Box", some 0, [], false, false, true, [0, 1], [0]⟩]
  fields := #[⟨"content", 1, .cls 0, false⟩]
  methods := #[
    .put,
    .routine 1 "main" "void main()" none [2, 3, 4, 5]
      [.new 2 (.cls 1), .new 3 (.cls 0),
        .invoke ⟨.virtual, ⟨1, "void put(Object)"⟩, some 2, [3], none⟩,
        .loadField 4 2 0, .cast 5 4 (.cls 0)]]
  vars := #[⟨"this", .cls 1, 0⟩, ⟨"p0", .cls 0, 0⟩, ⟨"box", .cls 1, 1⟩, ⟨"in", .cls 0, 1⟩,
    ⟨"out", .cls 0, 1⟩, ⟨"again", .cls 0, 1⟩]
  main := some 1

/-- A handler that turns what is read back into an object of its own, which alone may pass a filter,
and sends everything twice. -/
def watchedBoxes : Setup Unit where
  program := boxes
  selector := .limited (.callSite 1)
  handlers := {
    react := fun e _ _ =>
      { state := ()
        commands := match e with
          | .started => [.addFilter (.static 0) fun o => o.ty == .cls 1,
              .addFlow (.other ⟨"watch", 0, some fun c o => some (c, { o with ty := .cls 1 })⟩)
                (.var ContextTable.emptyId 5) (.static 0),
              .addEntryPoint { method := 1 }]
          | .arrived q _ => [.propagate (.interned q)]
          | _ => [] }
    phaseEnd := fun _ _ _ => { state := () } }

namespace Solver

def passes (p : Program) (s : State σ) (id : EdgeId) (o : CsObjId) : Bool :=
  match s.flow.edge? id with
  | none => false
  | some e =>
    match s.elements.pts? e.source with
    | none => false
    | some set => (s.flowOver p id set).2.contains o &&
        (s.elements.filters e.target).all fun keep => (s.flowOver p id set).1.objSatisfies keep o

theorem watchedBoxes_completes_flow :
    ∃ s e, solve watchedBoxes 100 (Heap.ofProgram boxes true) () = some s ∧
      s.flow.edge? 0 = some e ∧ passes boxes s 0 2 = true ∧
      ∃ pts, s.elements.pts? e.target = some pts ∧ 2 ∈ pts := by
  have tested : always watchedBoxes (fun t => decide (∀ c ∈ t.queue, c.Known t.toFacts)) 100
      (start watchedBoxes (Heap.ofProgram boxes true) ()) = true := by decide +kernel
  have ends : (solve watchedBoxes 100 (Heap.ofProgram boxes true) ()).any (passes boxes · 0 2) = true := by
    decide +kernel
  obtain ⟨s, solved, passed⟩ := (Option.any_eq_true _ _).mp ends
  have crossing := passed
  unfold passes at crossing
  split at crossing
  · cases crossing
  · rename_i e edge
    split at crossing
    · cases crossing
    · rename_i set source
      obtain ⟨crossed, accepted⟩ := Bool.and_eq_true_iff.mp crossing
      refine ⟨s, e, solved, edge, passed, solve_completes_flow ?_ (fun _ _ _ _ => rfl) solved edge source
        (ObjSet.contains_iff.mp crossed) (List.all_eq_true.mp accepted)⟩
      exact fun t visited => of_decide_eq_true (visited.test tested)

end Solver

end PointsTo
