import PointsTo.Proofs.Propagation

/-!
The rules of the solver deliver what they send, whatever the handlers ask for.
-/
namespace PointsTo

variable {f g : Facts}

/-- The handle in a reference, if there is one, stands for an object. -/
def ObjRef.Known (f : Facts) : ObjRef → Prop
  | .interned id => ∃ d, f.describe? id = some d
  | .described _ _ => True

def PointerRef.Known (f : Facts) : PointerRef → Prop
  | .interned id => ∃ ptr, f.elements.pointer? id = some ptr
  | .var _ _ | .static _ => True
  | .field base _ | .element base => base.Known f

/-- A command names no handle that nobody has handed out. -/
def Command.Known (f : Facts) : Command → Prop
  | .addPointsTo pointer objs => pointer.Known f ∧ ∀ o ∈ objs, o.Known f
  | .addEntryPoint _ => True
  | .addFilter pointer _ | .propagate pointer => pointer.Known f
  | .addFlow _ source target => source.Known f ∧ target.Known f
  | .addCall _ _ _ _ receiver => ∀ o ∈ receiver, o.Known f

instance (f : Facts) (r : ObjRef) : Decidable (r.Known f) :=
  match r with
  | .interned _ => decidable_of_iff _ Option.isSome_iff_exists
  | .described _ _ => isTrue trivial

instance (f : Facts) (r : PointerRef) : Decidable (r.Known f) :=
  match r with
  | .interned _ => decidable_of_iff _ Option.isSome_iff_exists
  | .var _ _ | .static _ => isTrue trivial
  | .field base _ | .element base => inferInstanceAs (Decidable (base.Known f))

instance (f : Facts) (c : Command) : Decidable (c.Known f) :=
  match c with
  | .addPointsTo pointer objs => inferInstanceAs (Decidable (pointer.Known f ∧ ∀ o ∈ objs, o.Known f))
  | .addEntryPoint _ => isTrue trivial
  | .addFilter pointer _ | .propagate pointer => inferInstanceAs (Decidable (pointer.Known f))
  | .addFlow _ source target => inferInstanceAs (Decidable (source.Known f ∧ target.Known f))
  | .addCall _ _ _ _ receiver => inferInstanceAs (Decidable (∀ o ∈ receiver, o.Known f))

theorem Facts.Extends.objRef_known (grown : f.Extends g) {r : ObjRef} (known : r.Known f) : r.Known g := by
  cases r with
  | interned id => exact known.imp fun _ before => grown.describe? before
  | described c o => exact trivial

theorem Facts.Extends.pointerRef_known (grown : f.Extends g) {r : PointerRef} (known : r.Known f) :
    r.Known g := by
  cases r with
  | interned id => exact known.imp fun _ before => grown.pointers _ _ before
  | var c v => exact trivial
  | static f => exact trivial
  | field base f => exact grown.objRef_known (r := base) known
  | element array => exact grown.objRef_known (r := array) known

namespace State

variable {σ : Type u} {p : Program} {s t : State σ} {q r : PointerId} {motive : State σ → Prop}
  {context : ContextId} {stmts : List (StmtRef × Stmt)} {o : CsObjId} {body : Body} {cx : Setup σ}
  {entry : EntryPoint}

def Knows (s : State σ) (q : PointerId) : Prop := ∃ ptr, s.elements.pointer? q = some ptr

theorem Quiet.knows (quiet : s.Quiet t) (known : s.Knows q) : t.Knows q :=
  known.imp fun _ before => quiet.grown.pointers _ _ before

theorem Safe.knows (safe : s.Safe p t) (known : s.Knows q) : t.Knows q := safe.toQuiet.knows known

theorem internPointer_knows (s : State σ) (ptr : Pointer) :
    (s.internPointer ptr).1.Knows (s.internPointer ptr).2 :=
  ⟨ptr, Elements.pointer?_internPointer_self s.elements ptr⟩

theorem callTo_safe (s : State σ) (cx : Setup σ) (kind : CallKind) (context : ContextId)
    (site : StmtRef) (receiver : Option Receiver) (callee : MethodId) :
    s.Safe p (s.callTo cx kind context site receiver callee).1 := by
  have selected := selectCallee_safe (p := p) s cx context site receiver callee
  unfold callTo
  generalize s.selectCallee cx context site receiver callee = r at selected ⊢
  obtain ⟨t, c⟩ := r
  have sited := selected.trans (internSite_safe t context site)
  exact sited.trans (enlist_safe _ c callee kind _)

theorem callOn_safe (s : State σ) (cx : Setup σ) (context : ContextId) (base : PointerId)
    (site : StmtRef) (call : Invoke) (receiver : CsObjId) (known : s.Knows base) :
    s.Safe p (s.callOn cx context base site call receiver) := by
  unfold callOn
  split
  · next h id obj entry found =>
    split
    · exact Safe.refl s
    · split
      · exact notify_safe s cx _
      · next callee _ =>
        have called := callTo_safe (p := p) s cx (CallKind.ofInvoke call.kind) context site
          (some ⟨h, id⟩) callee
        generalize s.callTo cx (CallKind.ofInvoke call.kind) context site _ callee = r at called ⊢
        obtain ⟨t, c⟩ := r
        dsimp only at called ⊢
        split
        · exact called
        · next this _ =>
          have arrived := called.trans (internPointer_safe t (.var c this))
          refine arrived.trans (passReceiver_safe _ _ _ _ ?_ (internPointer_knows _ _) ?_)
          · exact arrived.knows known
          · obtain ⟨_, described⟩ := Facts.describe?_of_obj? found
            exact ⟨_, arrived.grown.describe? described⟩
  · exact Safe.refl s

theorem callOnAll_safe (s : State σ) (cx : Setup σ) (context : ContextId) (base : PointerId)
    (site : StmtRef) (call : Invoke) (delta : ObjSet) (known : s.Knows base) :
    s.Safe p (s.callOnAll cx context base site call delta) := by
  have named := internSite_safe (p := p) s context site
  refine named.trans (foldl_safe _ _ fun t quiet o _ => callOn_safe t cx _ _ _ _ _ ?_)
  exact quiet.knows (named.knows known)

theorem callStatic_safe (s : State σ) (cx : Setup σ) (context : ContextId) (site : StmtRef)
    (call : Invoke) : s.Safe p (s.callStatic cx context site call) := by
  unfold callStatic
  split
  · exact notify_safe s cx _
  · exact callTo_safe s cx _ _ _ _ _

theorem accessKind_induct {kind : FlowKind} (start : motive s)
    (link : ∀ t, motive t → ∀ x ∈ stmts, ∀ a b, accessFlow? context o x.2 = some (kind, a, b) →
      motive (t.link p kind a b)) : motive (s.accessKind p context stmts o kind) := by
  refine List.foldlRecOn _ _ start fun t there x member => ?_
  dsimp only
  split
  · next k a b accesses =>
    split
    · next same =>
      subst same
      exact link t there x member a b accesses
    · exact there
  · exact there

theorem accessAll_induct (start : motive s)
    (link : ∀ t, motive t → ∀ x ∈ stmts, ∀ kind a b, accessFlow? context o x.2 = some (kind, a, b) →
      motive (t.link p kind a b)) : motive (s.accessAll p context stmts o) :=
  List.foldlRecOn _ _ start fun _ there kind _ =>
    accessKind_induct there fun t there x member => link t there x member kind

theorem accessKind_safe (s : State σ) (context : ContextId) (stmts : List (StmtRef × Stmt))
    (o : CsObjId) (kind : FlowKind) : s.Safe p (s.accessKind p context stmts o kind) :=
  accessKind_induct (Safe.refl s) fun t safe _ _ a b _ => safe.trans (link_safe t kind a b)

theorem accessAll_safe (s : State σ) (context : ContextId) (stmts : List (StmtRef × Stmt))
    (o : CsObjId) : s.Safe p (s.accessAll p context stmts o) :=
  accessAll_induct (Safe.refl s) fun t safe _ _ kind a b _ => safe.trans (link_safe t kind a b)

theorem useDelta_safe (s : State σ) (cx : Setup σ) (context : ContextId) (v : VarId)
    (pointer : PointerId) (delta : ObjSet) (known : s.Knows pointer) :
    s.Safe cx.program (s.useDelta cx context v pointer delta) := by
  have accessed : s.Safe cx.program (delta.toList.foldl
      (fun t o => t.accessAll cx.program context (s.basedOn cx.program v) o) s) :=
    foldl_safe _ s fun t _ o _ => accessAll_safe t context _ o
  refine accessed.trans (foldl_safe _ _ ?_)
  rintro t quiet ⟨site, stmt⟩ _
  cases stmt <;> first
    | exact callOnAll_safe t cx _ _ _ _ _ (quiet.knows (accessed.knows known))
    | exact Safe.refl t

theorem place_safe (s : State σ) (ptr : Pointer) (set : ObjSet)
    (known : s.Describes set) :
    s.Safe p ((s.internPointer ptr).1.pushPoints (s.internPointer ptr).2 set) := by
  have interned := internPointer_safe (p := p) s ptr
  refine interned.trans (pushPoints_safe _ _ _ fun _ o member => ⟨internPointer_knows s ptr, ?_⟩)
  exact (known o member).imp fun _ before => interned.grown.describe? before

theorem place_one_safe (s : State σ) (ptr : Pointer) {d : ContextId × Obj} (known : s.describe? o = some d) :
    s.Safe p ((s.internPointer ptr).1.pushPoints (s.internPointer ptr).2 (ObjSet.singleton o)) := by
  refine place_safe s ptr _ fun x member => ?_
  rw [ObjSet.mem_singleton.mp member]
  exact ⟨d, known⟩

theorem runStmt_safe (s : State σ) (cx : Setup σ) (context : ContextId) (site : StmtRef)
    (stmt : Stmt) : s.Safe cx.program (s.runStmt cx context site stmt) := by
  cases stmt with
  | new lhs ty =>
    have made := internObj_safe (p := cx.program) s (s.heap.rules.allocated site ty)
    have object : (s.internObj (s.heap.rules.allocated site ty)).1.heap.get?
        (s.internObj (s.heap.rules.allocated site ty)).2 = some (s.heap.rules.allocated site ty) :=
      Table.get?_intern_self _ _
    simp only [runStmt]
    generalize s.internObj (s.heap.rules.allocated site ty) = r at made object ⊢
    obtain ⟨s₁, o⟩ := r
    have selected := made.trans (selectHeap_safe s₁ cx context site.method)
    have kept : (s₁.selectHeap cx context site.method).1.heap = s₁.heap := rfl
    dsimp only at object ⊢
    generalize s₁.selectHeap cx context site.method = r at selected kept ⊢
    obtain ⟨s₂, h⟩ := r
    have described : (s₂.internCsObj h o).1.describe? (s₂.internCsObj h o).2 =
        some (h, s.heap.rules.allocated site ty) :=
      Facts.describe?_eq_some.mpr
        ⟨o, Table.get?_intern_self _ _, (congrArg (Heap.get? · o) kept).trans object⟩
    exact (selected.trans (internCsObj_safe s₂ h o)).trans (place_one_safe _ _ described)
  | literal lhs value =>
    have made := (internDescribed_safe (p := cx.program) s ContextTable.emptyId
      (s.heap.rules.constant value)).trans
        (place_one_safe _ (.var context lhs) (describe?_internDescribed s _ _))
    cases value with
    | str text => exact made
    | cls ty => exact made
    | null | int _ | float _ => exact Safe.refl s
  | copy lhs rhs | loadStatic lhs f | storeStatic f rhs => exact link_safe s _ _ _
  | cast lhs rhs ty =>
    have source := internPointer_safe (p := cx.program) s (.var context rhs)
    have target := internPointer_safe (p := cx.program) (s.internPointer (.var context rhs)).1
      (.var context lhs)
    refine (source.trans target).trans (addFlow_safe _ _ ?_ (internPointer_knows _ _))
    exact target.knows (internPointer_knows s _)
  | invoke call =>
    simp only [runStmt]
    split
    · exact callStatic_safe s cx context site call
    · exact Safe.refl s
  | _ => exact Safe.refl s

theorem passArguments_induct {caller callee : ContextId} {call : Invoke} (start : motive s)
    (param : ∀ t, motive t → ∀ x ∈ call.args.zip body.params,
      motive (t.link p .parameterPassing (.var caller x.1) (.var callee x.2)))
    (ret : ∀ t, motive t → ∀ result, call.result = some result → ∀ r ∈ body.returns,
      motive (t.link p .ret (.var callee r) (.var caller result))) :
    motive (s.passArguments p caller call callee body) := by
  have passed := List.foldlRecOn (motive := motive) (call.args.zip body.params) _ start param
  unfold passArguments
  dsimp only
  split
  · exact passed
  · next result answer => exact List.foldlRecOn _ _ passed fun t there => ret t there result answer

/-- The state in which a call is recorded and nothing has been done about it. -/
def recording (s : State σ) (e : CallEdge) : State σ := { s with calls := (s.calls.addEdge e).1 }

/-- The arguments of a call are passed, if it is one of the program's own. -/
def passing (s : State σ) (cx : Setup σ) (e : CallEdge) : State σ :=
  if e.kind = .other then s
  else match s.elements.site? e.site, s.elements.method? e.callee with
    | some (caller, site), some (callee, method) =>
      match cx.program.invoke? site, cx.program.body? method with
      | some call, some body => s.passArguments cx.program caller call callee body
      | _, _ => s
    | _, _ => s

theorem passing_keeps {e : CallEdge} (start : motive s)
    (link : ∀ t kind a b, motive t → motive (t.link cx.program kind a b)) : motive (s.passing cx e) := by
  unfold passing
  split
  · exact start
  · split
    · split
      · exact passArguments_induct start (fun t there _ _ => link t _ _ _ there)
          fun t there _ _ _ _ => link t _ _ _ there
      · exact start
    · exact start

theorem passing_safe (s : State σ) (cx : Setup σ) (e : CallEdge) : s.Safe cx.program (s.passing cx e) :=
  passing_keeps (Safe.refl s) fun t kind a b safe => safe.trans (link_safe t kind a b)

variable {e : CallEdge}

theorem processCall_known (known : e ∈ s.calls.edges) : s.processCall cx e = s := by
  unfold processCall
  rcases CallGraph.addEdge_cases s.calls e with ⟨_, equal⟩ | ⟨new, _⟩
  · rw [equal]
    rfl
  · exact absurd known new

theorem processCall_new (new : e ∉ s.calls.edges) :
    s.processCall cx e =
      State.notify (((s.recording e).reach cx e.callee).passing cx e) cx (.called e) := by
  unfold processCall recording
  rcases CallGraph.addEdge_cases s.calls e with ⟨before, _⟩ | ⟨_, equal⟩
  · exact absurd before new
  · rw [equal]
    rfl

/-- Nothing known is lost, and what handles and edges have to satisfy is kept. -/
structure Delivers (p : Program) (s t : State σ) : Prop where
  grown : s.toFacts.Extends t.toFacts
  handles : s.Handles → t.Handles
  flows : s.Handles → s.Flows p → t.Flows p

theorem Safe.delivers (safe : s.Safe p t) : s.Delivers p t :=
  ⟨safe.grown, safe.handles, safe.flows⟩

theorem Delivers.trans {u : State σ} (first : s.Delivers p t) (second : t.Delivers p u) : s.Delivers p u :=
  ⟨first.grown.trans second.grown, fun known => second.handles (first.handles known),
    fun known flows => second.flows (first.handles known) (first.flows known flows)⟩

theorem delivers_of_same (grown : s.toFacts.Extends t.toFacts) (heap : t.heap = s.heap)
    (elements : t.elements = s.elements) (flow : t.flow = s.flow) (worklist : t.worklist = s.worklist) :
    s.Delivers p t := by
  obtain ⟨⟨_, _, _, _, _⟩, _, _, _, _, _, _⟩ := s
  obtain ⟨⟨_, _, _, _, _⟩, _, _, _, _, _, _⟩ := t
  subst heap elements flow worklist
  exact ⟨grown, fun known => ⟨known.held, known.pending, known.edges, known.receivers⟩,
    fun _ flows => flows⟩

theorem registerMethod_induct {P : State σ → Prop} {m : MethodId} (start : P s)
    (noted : P { s with seen := s.seen ++ [m] }) (told : ∀ t e, P t → P (t.notify cx e)) :
    P (s.registerMethod cx m) := by
  unfold registerMethod
  split
  · exact start
  · exact List.foldlRecOn _ _ (told _ _ noted) fun t there _ _ => told t _ there

/-- What survives telling the handler and carrying out statements survives reaching a method. -/
theorem reach_induct {P : State σ → Prop} {id : CsMethodId}
    (marked : P { s with calls := (s.calls.addReachable id).1 })
    (noted : ∀ t m, P t → P { t with seen := t.seen ++ [m] }) (told : ∀ t e, P t → P (t.notify cx e))
    (run : ∀ t c site stmt, P t → P (t.runStmt cx c site stmt)) : P (s.reach cx id) := by
  unfold reach
  dsimp only
  split
  · split
    · exact marked
    · next context m _ =>
      have registered := registerMethod_induct marked (noted _ m marked) told
      exact told _ _ (List.foldlRecOn _ _ registered fun t there a _ => run t context a.1 a.2 there)
  · exact marked

theorem seen_delivers (s : State σ) (m : MethodId) : s.Delivers p { s with seen := s.seen ++ [m] } :=
  delivers_of_same (Facts.Extends.refl _) rfl rfl rfl rfl

theorem registerMethod_delivers (s : State σ) (cx : Setup σ) (m : MethodId) :
    s.Delivers p (s.registerMethod cx m) :=
  registerMethod_induct (Safe.refl s).delivers (seen_delivers s m)
    fun t e there => there.trans (notify_safe t cx e).delivers

theorem reach_delivers (s : State σ) (cx : Setup σ) (m : CsMethodId) :
    s.Delivers cx.program (s.reach cx m) :=
  reach_induct (delivers_of_same (Facts.extends_addReachable _ m) rfl rfl rfl rfl)
    (fun t m there => there.trans (seen_delivers t m)) (fun t e there => there.trans (notify_safe t cx e).delivers)
    fun t c site stmt there => there.trans (runStmt_safe t cx c site stmt).delivers

theorem processCall_delivers (s : State σ) (cx : Setup σ) (e : CallEdge) :
    s.Delivers cx.program (s.processCall cx e) := by
  by_cases before : e ∈ s.calls.edges
  · rw [processCall_known before]
    exact (Safe.refl s).delivers
  rw [processCall_new before]
  have recorded : s.Delivers cx.program (s.recording e) :=
    delivers_of_same (Facts.extends_addEdge _ e) rfl rfl rfl rfl
  exact (recorded.trans (reach_delivers _ cx e.callee)).trans
    ((passing_safe _ cx e).trans (notify_safe _ cx (.called e))).delivers

theorem mem_admitted {set : ObjSet} (known : ∃ d, s.describe? o = some d) :
    o ∈ s.admitted q set ↔ o ∈ set ∧ ¬ s.Refuses q o := by
  obtain ⟨d, described⟩ := known
  have object := Facts.obj?_of_describe? described
  have refuses : s.Refuses q o ↔ ∃ keep ∈ s.elements.filters q, keep d.2 = false := by
    constructor
    · rintro ⟨obj, found, refusal⟩
      rw [object] at found
      cases found
      exact refusal
    · exact fun refusal => ⟨d.2, object, refusal⟩
  rw [refuses]
  unfold admitted
  split
  · next none => simp [none]
  · rw [ObjSet.mem_filter]
    simp [Facts.objSatisfies, object]

theorem subset_of_admitted {set : ObjSet} (member : o ∈ s.admitted q set) : o ∈ set := by
  unfold admitted at member
  split at member
  · exact member
  · exact (ObjSet.mem_filter.mp member).1

def news (s : State σ) (q : PointerId) (set : ObjSet) : ObjSet :=
  (((s.elements.pts? q).getD ObjSet.empty).union (s.admitted q set)).2

/-- The state in which a pointer has its new objects and nothing has been sent on. -/
def filled (s : State σ) (q : PointerId) (set : ObjSet) : State σ :=
  { s with
    elements := s.elements.setPts q
      (((s.elements.pts? q).getD ObjSet.empty).union (s.admitted q set)).1
    stats := { s.stats with
      filteredOut := s.stats.filteredOut + (set.size - (s.admitted q set).size) } }

theorem receive_eq (s : State σ) (q : PointerId) (set : ObjSet) :
    s.receive p q set = if (s.news q set).isEmpty then (s.filled q set, s.news q set)
      else ((s.filled q set).sendAll p q (s.news q set), s.news q set) := rfl

theorem mem_news {set : ObjSet} : o ∈ s.news q set ↔ o ∈ s.admitted q set ∧ ¬ s.Holds q o := by
  unfold news Holds Elements.Holds
  rw [ObjSet.mem_union_snd]
  cases s.elements.pts? q <;> simp

theorem filled_grown (s : State σ) (q : PointerId) (set : ObjSet) :
    s.toFacts.Extends (s.filled q set).toFacts :=
  { Facts.Extends.refl s.toFacts with }

theorem holds_filled {set : ObjSet} (known : ∀ o ∈ set, s.Knows q) :
    (s.filled q set).Holds r o ↔ s.Holds r o ∨ (r = q ∧ o ∈ s.admitted q set) := by
  unfold Holds Elements.Holds filled
  dsimp only
  by_cases same : r = q
  · subst same
    cases pointer : s.elements.pointer? r with
    | some ptr =>
      rw [Elements.pts?_setPts_self _ pointer]
      cases s.elements.pts? r <;> simp
    | none =>
      -- nothing comes to a pointer that nobody knows
      have nothing : o ∉ s.admitted r set := by
        intro member
        obtain ⟨ptr, found⟩ := known o (subset_of_admitted member)
        rw [pointer] at found
        cases found
      rw [Elements.pts?_setPts_unknown _ pointer]
      simp [nothing]
  · rw [Elements.pts?_setPts_ne _ same]
    simp [same]

theorem refuses_filled {set : ObjSet} : (s.filled q set).Refuses r o ↔ s.Refuses r o := by
  have same : (s.filled q set).elements.filters r = s.elements.filters r :=
    Elements.filters_setPts _ _ _ _
  unfold Refuses
  rw [same]
  rfl

theorem delivered_filled {set : ObjSet} (known : ∀ o ∈ set, s.Knows q) (delivered : s.Delivered r o) :
    (s.filled q set).Delivered r o := by
  rcases delivered with held | pending | refused
  · exact Or.inl ((holds_filled known).mpr (Or.inl held))
  · exact Or.inr (Or.inl pending)
  · exact Or.inr (Or.inr (refuses_filled.mpr refused))

theorem Handles.filled {set : ObjSet} (handles : s.Handles) (known : ∀ o ∈ set, s.Knows q)
    (described : s.Describes set) : (s.filled q set).Handles where
  held := by
    intro r o held
    rcases (holds_filled known).mp held with before | ⟨_, member⟩
    · exact handles.held r o before
    · exact described o (subset_of_admitted member)
  pending := handles.pending
  edges := handles.edges
  receivers := handles.receivers

/-- Objects flow, if those in hand are counted as delivered. -/
def FlowsBut (p : Program) (s : State σ) (q : PointerId) (set : ObjSet) : Prop :=
  ∀ id e o, s.flow.edge? id = some e → s.Holds e.source o → ∀ d, s.crossing? p id e.label o = some d →
    ∃ o', s.describe? o' = some d ∧ (s.Delivered e.target o' ∨ (e.target = q ∧ o' ∈ set))

theorem sendNews_safe {set : ObjSet} (described : s.Describes set) :
    (s.filled q set).Safe p (s.receive p q set).1 ∧
      (s.receive p q set).1.flow = s.flow ∧
      ∀ id e, s.flow.edge? id = some e → e.source = q → ∀ o ∈ s.news q set,
        (s.receive p q set).1.Carries p id e o := by
  have known : (s.filled q set).Describes (s.news q set) :=
    fun o member => described o (subset_of_admitted (mem_news.mp member).1)
  rw [receive_eq]
  split
  · next none =>
    refine ⟨Safe.refl _, rfl, fun _ _ _ _ o member => ?_⟩
    exact absurd member (ObjSet.isEmpty_iff.mp none o)
  · refine ⟨sendAll_safe _ q _ known, sendAll_flow _ q _ known, ?_⟩
    intro id e edge source o member
    exact sendAll_carries known edge source member

theorem receive_delivers {set : ObjSet} (known : ∀ o ∈ set, s.Knows q)
    (described : s.Describes set) (handles : s.Handles) (flows : s.FlowsBut p q set) :
    (s.receive p q set).1.Handles ∧ (s.receive p q set).1.Flows p := by
  obtain ⟨safe, flow, carried⟩ := sendNews_safe (p := p) (q := q) described
  refine ⟨safe.handles (handles.filled known described), ?_⟩
  intro id e o edge held
  rw [flow] at edge
  have before := (holds_filled known).mp (safe.holds_iff.mp held)
  by_cases old : s.Holds e.source o
  · -- it was at the source before: only the objects in hand have moved since
    intro d crosses
    obtain ⟨c, meaning⟩ := handles.held _ o old
    have grown := (filled_grown s q set).trans safe.grown
    rw [crossing?_eq_of_extends grown meaning (by rw [flow]; exact fun admitted => admitted)]
      at crosses
    obtain ⟨o', known', arrives⟩ := flows id e o edge old d crosses
    refine ⟨o', grown.describe? known', safe.delivered ?_⟩
    rcases arrives with delivered | ⟨rfl, inHand⟩
    · exact delivered_filled known delivered
    · by_cases refused : s.Refuses e.target o'
      · exact Or.inr (Or.inr (refuses_filled.mpr refused))
      · exact Or.inl ((holds_filled known).mpr
          (Or.inr ⟨rfl, (mem_admitted ⟨d, known'⟩).mpr ⟨inHand, refused⟩⟩))
  · rcases before with at_source | ⟨source, member⟩
    · exact absurd at_source old
    · exact carried id e edge source o (mem_news.mpr ⟨member, source ▸ old⟩)

theorem processPoints_delivers {set : ObjSet} (known : ∀ o ∈ set, s.Knows q)
    (described : s.Describes set) (handles : s.Handles)
    (flows : s.FlowsBut cx.program q set) :
    (s.processPoints cx q set).Handles ∧ (s.processPoints cx q set).Flows cx.program := by
  obtain ⟨received, flowing⟩ := receive_delivers known described handles flows
  unfold processPoints
  generalize s.receive cx.program q set = r at received flowing ⊢
  obtain ⟨t, delta⟩ := r
  dsimp only at received flowing ⊢
  split
  · exact ⟨received, flowing⟩
  · have told : ∀ u : State σ, t.Safe cx.program u → (u.notify cx (.arrived q delta)).Handles ∧
        (u.notify cx (.arrived q delta)).Flows cx.program := fun u used =>
      have safe := used.trans (notify_safe u cx (.arrived q delta))
      ⟨safe.handles received, safe.flows received flowing⟩
    split
    · next context v found => exact told _ (useDelta_safe t cx _ _ _ _ ⟨_, found⟩)
    · exact told t (Safe.refl t)

theorem resolveObj_still (s : State σ) (r : ObjRef) : s.Still (s.resolveObj r).1 := by
  cases r with
  | interned id => exact ⟨Quiet.refl s, rfl, rfl⟩
  | described c o => exact ⟨internDescribed_quiet s c o, rfl, rfl⟩

theorem resolveObj_described {r : ObjRef} (known : r.Known s.toFacts) :
    ∃ d, (s.resolveObj r).1.describe? (s.resolveObj r).2 = some d := by
  cases r with
  | interned id => exact known
  | described c o => exact ⟨(c, o), describe?_internDescribed s c o⟩

theorem resolveObjs_still (s : State σ) (rs : List ObjRef) : s.Still (s.resolveObjs rs).1 := by
  induction rs generalizing s with
  | nil => exact ⟨Quiet.refl s, rfl, rfl⟩
  | cons r rest ih => exact (resolveObj_still s r).trans (ih _)

theorem resolveObjs_described {rs : List ObjRef} (known : ∀ r ∈ rs, r.Known s.toFacts) :
    ∀ o ∈ (s.resolveObjs rs).2, ∃ d, (s.resolveObjs rs).1.describe? o = some d := by
  induction rs generalizing s with
  | nil => exact fun o member => absurd member List.not_mem_nil
  | cons r rest ih =>
    have first := resolveObj_still s r
    have later : ∀ r' ∈ rest, r'.Known (s.resolveObj r).1.toFacts :=
      fun r' member => first.grown.objRef_known (known r' (List.mem_cons_of_mem _ member))
    intro o member
    rcases List.mem_cons.mp member with rfl | others
    · obtain ⟨d, described⟩ := resolveObj_described (known r List.mem_cons_self)
      exact ⟨d, (resolveObjs_still _ rest).grown.describe? described⟩
    · exact ih later o others

theorem resolvePointer_still (s : State σ) (r : PointerRef) : s.Still (s.resolvePointer r).1 := by
  have interned : ∀ (t : State σ) ptr, t.Still (t.internPointer ptr).1 :=
    fun t ptr => ⟨internPointer_quiet t ptr, rfl, rfl⟩
  cases r with
  | interned id => exact ⟨Quiet.refl s, rfl, rfl⟩
  | var c v => exact interned s _
  | static f => exact interned s _
  | field base f => exact (resolveObj_still s base).trans (interned _ _)
  | element array => exact (resolveObj_still s array).trans (interned _ _)

theorem resolvePointer_knows {r : PointerRef} (known : r.Known s.toFacts) :
    (s.resolvePointer r).1.Knows (s.resolvePointer r).2 := by
  cases r with
  | interned id => exact known
  | var c v | static f => exact internPointer_knows s _
  | field base f | element array => exact internPointer_knows _ _

theorem seed_safe (s : State σ) (q : PointerId) (o : Obj) (known : s.Knows q) :
    s.Safe p (s.seed q o) := by
  have made := internDescribed_safe (p := p) s ContextTable.emptyId o
  refine made.trans (pushPoints_safe _ _ _ fun _ x member => ⟨made.knows known, ?_⟩)
  rw [ObjSet.mem_singleton.mp member]
  exact ⟨_, describe?_internDescribed s _ o⟩

theorem seedAt_safe (s : State σ) (ptr : Pointer) (o : Obj) :
    s.Safe p ((s.internPointer ptr).1.seed (s.internPointer ptr).2 o) :=
  (internPointer_safe s ptr).trans (seed_safe _ _ _ (internPointer_knows s ptr))

theorem pushResolved_safe (s : State σ) (q : PointerId) (rs : List ObjRef) (known : s.Knows q)
    (refs : ∀ r ∈ rs, r.Known s.toFacts) :
    s.Safe p ((s.resolveObjs rs).1.pushPoints q (ObjSet.ofList (s.resolveObjs rs).2)) := by
  have resolved := resolveObjs_still s rs
  refine resolved.safe.trans (pushPoints_safe _ _ _ fun _ o member => ⟨resolved.knows known, ?_⟩)
  exact resolveObjs_described refs o (ObjSet.mem_ofList.mp member)

theorem seedThis_safe (s : State σ) (body : Body) (objs : List Obj) :
    s.Safe p (s.seedThis body objs) := by
  unfold seedThis
  split
  · exact Safe.refl s
  · refine (internPointer_safe s _).trans (pushResolved_safe _ _ _ (internPointer_knows s _) ?_)
    intro r member
    obtain ⟨o, _, rfl⟩ := List.mem_map.mp member
    exact trivial

theorem seedParam_safe (s : State σ) (body : Body) (i : Nat) (o : Obj) :
    s.Safe p (s.seedParam body i o) := by
  unfold seedParam
  split
  · exact Safe.refl s
  · exact seedAt_safe s _ o

theorem internMethod_delivers (s : State σ) (c : ContextId) (m : MethodId) :
    s.Delivers p (s.internMethod c m).1 :=
  ⟨internMethod_grown s c m, fun known => ⟨known.held, known.pending, known.edges, known.receivers⟩,
    fun _ flows => flows⟩

/-- The state in which an entry method is known and noted, and not yet reached. -/
def noting (s : State σ) (m : MethodId) : State σ :=
  { (s.internMethod ContextTable.emptyId m).1 with
    calls := s.calls.addEntry (s.internMethod ContextTable.emptyId m).2 }

/-- The state in which the objects of an entry point are put where they start. -/
def seedAll (s : State σ) (body : Body) (entry : EntryPoint) : State σ :=
  entry.elements.foldl (fun t a => t.seedElement a.1 a.2)
    (entry.fields.foldl (fun t a => t.seedField a.1 a.2.1 a.2.2)
      (entry.params.foldl (fun t a => t.seedParam body a.1 a.2) (s.seedThis body entry.thisObjs)))

theorem enter_bare (s : State σ) (none : cx.program.body? entry.method = none) :
    s.enter cx entry =
      (s.noting entry.method).reach cx (s.internMethod ContextTable.emptyId entry.method).2 := by
  simp only [enter, none]
  rfl

theorem enter_body (s : State σ) (code : cx.program.body? entry.method = some body) :
    s.enter cx entry = ((s.noting entry.method).reach cx
      (s.internMethod ContextTable.emptyId entry.method).2).seedAll body entry := by
  simp only [enter, code]
  rfl

theorem seedAll_induct (this : motive (s.seedThis body entry.thisObjs))
    (param : ∀ t, motive t → ∀ a ∈ entry.params, motive (t.seedParam body a.1 a.2))
    (field : ∀ t, motive t → ∀ a ∈ entry.fields, motive (t.seedField a.1 a.2.1 a.2.2))
    (element : ∀ t, motive t → ∀ a ∈ entry.elements, motive (t.seedElement a.1 a.2)) :
    motive (s.seedAll body entry) :=
  List.foldlRecOn _ _ (List.foldlRecOn _ _ (List.foldlRecOn _ _ this param) field) element

theorem seedAll_safe (s : State σ) (body : Body) (entry : EntryPoint) : s.Safe p (s.seedAll body entry) := by
  refine seedAll_induct (motive := s.Safe p) (seedThis_safe s body entry.thisObjs)
    (fun t safe a _ => safe.trans (seedParam_safe t body a.1 a.2)) (fun t safe a _ => ?_) fun t safe a _ => ?_
  · exact safe.trans ((internDescribed_safe t _ _).trans (seedAt_safe _ _ _))
  · exact safe.trans ((internDescribed_safe t _ _).trans (seedAt_safe _ _ _))

theorem enter_delivers (s : State σ) (cx : Setup σ) (entry : EntryPoint) :
    s.Delivers cx.program (s.enter cx entry) := by
  have named := internMethod_delivers (p := cx.program) s ContextTable.emptyId entry.method
  have noted : s.Delivers cx.program (s.noting entry.method) :=
    named.trans (delivers_of_same (Facts.extends_addEntry _ _) rfl rfl rfl rfl)
  have reached := noted.trans (reach_delivers _ cx (s.internMethod ContextTable.emptyId entry.method).2)
  cases code : cx.program.body? entry.method with
  | none =>
    rw [enter_bare s code]
    exact reached
  | some body =>
    rw [enter_body s code]
    exact reached.trans (seedAll_safe _ body entry).delivers

theorem delivered_addFilter (keep : Obj → Bool) (delivered : s.Delivered r o) :
    State.Delivered { s with elements := s.elements.addFilter q keep } r o := by
  rcases delivered with ⟨set, found, member⟩ | pending | ⟨obj, object, k, attached, refusal⟩
  · exact Or.inl ⟨set, (Elements.pts?_addFilter _ _ _ _).trans found, member⟩
  · exact Or.inr (Or.inl pending)
  · exact Or.inr (Or.inr ⟨obj, object, k, Elements.mem_filters_addFilter attached, refusal⟩)

theorem addFilter_delivers (s : State σ) (q : PointerId) (keep : Obj → Bool) :
    s.Delivers p { s with elements := s.elements.addFilter q keep } := by
  have same : ∀ r o, State.Holds { s with elements := s.elements.addFilter q keep } r o →
      s.Holds r o := by
    rintro r o ⟨set, found, member⟩
    exact ⟨set, (Elements.pts?_addFilter _ _ _ _).symm.trans found, member⟩
  refine ⟨{ Facts.Extends.refl s.toFacts with }, fun known => ?_, fun _ flows => ?_⟩
  · exact ⟨fun r o held => known.held r o (same r o held), known.pending, known.edges,
      known.receivers⟩
  · intro id e o edge held d crosses
    obtain ⟨o', described, delivered⟩ := flows id e o edge (same _ _ held) d crosses
    exact ⟨o', described, delivered_addFilter keep delivered⟩

theorem sendAll_quiet (s : State σ) (q : PointerId) (set : ObjSet) :
    s.Quiet (s.sendAll p q set) := by
  refine List.foldlRecOn (s.flow.outEdges q) _ (Quiet.refl s) fun t quiet id _ => ?_
  exact quiet.trans (send_quiet t id set)

theorem addCall_safe (s : State σ) (cx : Setup σ) (kind : CallKind) (context : ContextId)
    (site : StmtRef) (callee : MethodId) (receiver : Option CsObjId)
    (known : ∀ o ∈ receiver, ∃ d, s.describe? o = some d) :
    s.Safe p (s.addCall cx kind context site callee receiver) := by
  unfold addCall
  dsimp only
  generalize (receiver.bind s.elements.obj?).map _ = chosen
  have called := callTo_safe (p := p) s cx kind context site chosen callee
  generalize s.callTo cx kind context site chosen callee = r at called ⊢
  obtain ⟨t, c⟩ := r
  dsimp only at called ⊢
  split
  · next o this _ =>
    obtain ⟨d, described⟩ := known o rfl
    exact called.trans (place_one_safe t _ (called.grown.describe? described))
  · exact called

theorem apply_delivers (s : State σ) (cx : Setup σ) (c : Command) (known : c.Known s.toFacts) :
    s.Delivers cx.program (s.apply cx c) := by
  cases c with
  | addPointsTo pointer objs =>
    have resolved := resolvePointer_still s pointer
    refine (resolved.safe.trans (pushResolved_safe _ _ _ (resolvePointer_knows known.1) ?_)).delivers
    exact fun r member => resolved.grown.objRef_known (known.2 r member)
  | addEntryPoint entry => exact enter_delivers s cx entry
  | addFilter pointer keep =>
    have attached := (resolvePointer_still s pointer).safe.delivers.trans
      (addFilter_delivers (p := cx.program) _ (s.resolvePointer pointer).2 keep)
    unfold apply
    dsimp only
    split
    · split
      · exact attached
      · exact attached.trans (delivers_of_same (Facts.Extends.refl _) rfl rfl rfl rfl)
    · exact attached
  | addFlow label source target =>
    have first := resolvePointer_still s source
    have second := resolvePointer_still (s.resolvePointer source).1 target
    refine ((first.trans second).safe.trans (addFlow_safe _ _ ?_ ?_)).delivers
    · exact second.knows (resolvePointer_knows known.1)
    · exact resolvePointer_knows (first.grown.pointerRef_known known.2)
  | addCall kind context site callee receiver =>
    cases receiver with
    | none =>
      refine (addCall_safe s cx kind context site callee none ?_).delivers
      exact fun o impossible => by cases impossible
    | some r =>
      refine ((resolveObj_still s r).safe.trans (addCall_safe _ cx kind context site callee _ ?_)).delivers
      intro o same
      cases same
      exact resolveObj_described (known r rfl)
  | propagate pointer =>
    have resolved := resolvePointer_still s pointer
    refine resolved.safe.delivers.trans (Safe.delivers ?_)
    simp only [apply]
    split
    · next pts found =>
      refine Safe.of_handles (sendAll_quiet _ _ pts) fun handles => sendAll_safe _ _ pts ?_
      exact fun o member => handles.held _ o ⟨pts, found, member⟩
    · exact Safe.refl _

end State

end PointsTo
