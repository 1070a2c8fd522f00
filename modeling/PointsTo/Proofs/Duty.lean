import PointsTo.Proofs.Law

/-!
What the solver owes. A fact is due once it is found or on its way, or a filter keeps it away; two
cells are linked once an edge runs from one to the other. What is due stays due and what is linked stays
linked, so each duty has to be done only once.
-/
namespace PointsTo

/-- An edge with the label runs from one cell to the other. -/
def Facts.Linked (f : Facts) (label : FlowLabel) (x y : Cell) : Prop :=
  ∃ id e, f.flow.edge? id = some e ∧ e.label = label ∧ f.CellOf e.source x ∧ f.CellOf e.target y

theorem Facts.Extends.linked {f g : Facts} (grown : f.Extends g) {label : FlowLabel} {x y : Cell}
    (linked : f.Linked label x y) : g.Linked label x y := by
  obtain ⟨id, e, edge, same, source, target⟩ := linked
  exact ⟨id, e, grown.edges _ _ edge, same, grown.cellOf source, grown.cellOf target⟩

namespace State

variable {σ : Type u} {s t : State σ} {x y : Cell} {cx : Setup σ} {c : Frame} {site : StmtRef} {stmt : Stmt}
  {i : Item} {p : Program} {e : FlowEdge}

/-- Found, or on its way, or kept away by a filter. -/
def Due (s : State σ) : Fact → Prop
  | .points x i => ∃ q o, s.CellOf q x ∧ s.ItemOf o i ∧ s.Delivered q o
  | .reached c m => ∃ id, s.MethodOf id c m ∧ id ∈ s.calls.reachable
  | .called kind c site d m => ∃ e, e.kind = kind ∧ s.CallOf e c site d m ∧
      (e ∈ s.calls.edges ∨ e ∈ s.worklist.calls)
  | .admitted x y i => ∃ id e o, s.flow.edge? id = some e ∧ e.label = .plain .thisPassing ∧
      s.CellOf e.source x ∧ s.CellOf e.target y ∧ s.ItemOf o i ∧ s.flow.admits id o = true

/-- Nothing found, sent or called is lost. -/
structure Keeps (s t : State σ) : Prop extends s.Grows t where
  points : ∀ q o, s.Delivered q o → t.Delivered q o
  calls : ∀ e, e ∈ s.calls.edges ∨ e ∈ s.worklist.calls → e ∈ t.calls.edges ∨ e ∈ t.worklist.calls

theorem Keeps.refl (s : State σ) : s.Keeps s :=
  ⟨Grows.refl s, fun _ _ known => known, fun _ known => known⟩

theorem Keeps.trans {u : State σ} (first : s.Keeps t) (second : t.Keeps u) : s.Keeps u :=
  ⟨first.toGrows.trans second.toGrows,
    fun q o known => second.points q o (first.points q o known),
    fun e known => second.calls e (first.calls e known)⟩

theorem Quiet.keeps (quiet : s.Quiet t) : s.Keeps t where
  toGrows := quiet.grows
  points := fun _ _ => quiet.delivered
  calls := fun e => Or.imp (fun recorded => quiet.calls ▸ recorded) (quiet.waiting e)

theorem Keeps.due (keeps : s.Keeps t) {x : Fact} (due : s.Due x) : t.Due x := by
  have grown := keeps.grown
  cases x with
  | points x i =>
    obtain ⟨q, o, cell, item, there⟩ := due
    exact ⟨q, o, grown.cellOf cell, grown.itemOf item, keeps.points q o there⟩
  | reached c m =>
    obtain ⟨id, named, reachable⟩ := due
    exact ⟨id, grown.methodOf named, grown.reachable id reachable⟩
  | called kind c site d m =>
    obtain ⟨e, same, named, there⟩ := due
    exact ⟨e, same, grown.callOf named, keeps.calls e there⟩
  | admitted x y i =>
    obtain ⟨id, e, o, edge, label, base, this, item, admitted⟩ := due
    exact ⟨id, e, o, grown.edges _ _ edge, label, grown.cellOf base, grown.cellOf this, grown.itemOf item,
      EdgeStore.admits_iff.mpr (grown.receivers _ (EdgeStore.admits_iff.mp admitted))⟩

def StmtDone (cx : Setup σ) (rules : HeapRules) (s : State σ) (c : Frame) (site : StmtRef) :
    Stmt → Prop
  | .new lhs ty =>
    s.Due (.points (.var c lhs) ⟨cx.selector.heapFrame c site.method, rules.allocated site ty⟩)
  | .literal lhs value => value.isConstant = true → s.Due (.points (.var c lhs) ⟨[], rules.constant value⟩)
  | .cast lhs rhs ty => s.Linked (.cast ty) (.var c rhs) (.var c lhs)
  | .invoke call => call.base = none → ∀ m, cx.program.resolve? call.target = some m →
    s.Due (.called (.ofInvoke call.kind) c site (cx.selector.calleeFrame cx.program c site none m) m)
  | stmt => ∀ x y, stmt.moves? c = some (x, y) → s.Linked (.plain stmt.flowKind) x y

/-- What a statement owes to one item of its base. -/
structure ItemDone (cx : Setup σ) (s : State σ) (c : Frame) (site : StmtRef) (stmt : Stmt)
    (base : VarId) (i : Item) : Prop where
  access : ∀ x y, stmt.accesses? c i = some (x, y) → s.Linked (.plain stmt.flowKind) x y
  call : ∀ call m, stmt = .invoke call → i.obj.ty ≠ .null →
    cx.program.callee? call i.obj.ty = some m →
    s.Due (.called (.ofInvoke call.kind) c site (cx.selector.calleeFrame cx.program c site (some i) m) m)
  admits : ∀ call m this, stmt = .invoke call → i.obj.ty ≠ .null →
    cx.program.callee? call i.obj.ty = some m → cx.program.this? m = some this →
    s.Due (.admitted (.var c base)
      (.var (cx.selector.calleeFrame cx.program c site (some i) m) this) i)

structure CallDone (cx : Setup σ) (s : State σ) (kind : CallKind) (c : Frame) (site : StmtRef)
    (d : Frame) (m : MethodId) : Prop where
  reached : s.Due (.reached d m)
  params : kind ≠ .other → ∀ call body arg param, cx.program.invoke? site = some call →
    cx.program.body? m = some body → (arg, param) ∈ call.args.zip body.params →
    s.Linked (.plain .parameterPassing) (.var c arg) (.var d param)
  results : kind ≠ .other → ∀ call body result returned, cx.program.invoke? site = some call →
    cx.program.body? m = some body → call.result = some result → returned ∈ body.returns →
    s.Linked (.plain .ret) (.var d returned) (.var c result)

theorem Keeps.stmtDone (keeps : s.Keeps t) {rules : HeapRules} (done : s.StmtDone cx rules c site stmt) :
    t.StmtDone cx rules c site stmt := by
  cases stmt with
  | new lhs ty => exact keeps.due (x := .points _ _) done
  | literal lhs value => exact fun constant => keeps.due (done constant)
  | cast lhs rhs ty => exact keeps.grown.linked done
  | invoke call => exact fun static m resolved => keeps.due (done static m resolved)
  | _ => exact fun x y moves => keeps.grown.linked (done x y moves)

theorem Keeps.itemDone (keeps : s.Keeps t) {base : VarId} (done : s.ItemDone cx c site stmt base i) :
    t.ItemDone cx c site stmt base i :=
  ⟨fun x y accesses => keeps.grown.linked (done.access x y accesses),
    fun call m same real resolved => keeps.due (done.call call m same real resolved),
    fun call m this same real resolved receives =>
      keeps.due (done.admits call m this same real resolved receives)⟩

theorem Keeps.callDone (keeps : s.Keeps t) {kind : CallKind} {d : Frame} {m : MethodId}
    (done : s.CallDone cx kind c site d m) : t.CallDone cx kind c site d m :=
  ⟨keeps.due done.reached,
    fun passes call body arg param calls code pair =>
      keeps.grown.linked (done.params passes call body arg param calls code pair),
    fun passes call body result returned calls code answer returns =>
      keeps.grown.linked (done.results passes call body result returned calls code answer returns)⟩

theorem addFlow_quiet (s : State σ) (p : Program) (e : FlowEdge) : s.Quiet (s.addFlow p e) :=
  addFlow_keeps (Quiet.refl s) (pushEdge_quiet s e) fun u id pts quiet _ => quiet.trans (send_quiet u id pts)

/-- An edge that is told apart by its label stands in the graph once it is added. -/
theorem addFlow_linked (labels : ∀ id old, s.flow.edge? id = some old → old.identity = e.identity →
      old.label = e.label) (source : s.CellOf e.source x) (target : s.CellOf e.target y) :
    (s.addFlow p e).Linked e.label x y := by
  have grown := (addFlow_quiet s p e).grown
  rcases addFlow_cases (p := p) s e with
    ⟨id, old, edge, same, _⟩ | ⟨edge, ⟨made, _⟩ | ⟨pts, found, made⟩⟩
  · obtain ⟨label, from_, to_⟩ := FlowEdge.joins_of_identity same (labels id old edge same)
    exact ⟨id, old, grown.edges _ _ edge, label, from_ ▸ grown.cellOf source, to_ ▸ grown.cellOf target⟩
  · rw [made] at grown ⊢
    exact ⟨s.flow.size, e, edge, rfl, grown.cellOf source, grown.cellOf target⟩
  · rw [made] at grown ⊢
    exact ⟨s.flow.size, e, (send_quiet _ _ pts).grown.edges _ _ edge, rfl, grown.cellOf source,
      grown.cellOf target⟩

theorem link_linked {kind : FlowKind} {a b : Pointer} (source : s.PointerIs a x) (target : s.PointerIs b y) :
    (s.link p kind a b).Linked (.plain kind) x y := by
  have first := internPointer_quiet s a
  have second := internPointer_quiet (s.internPointer a).1 b
  exact addFlow_linked (fun _ _ _ same => FlowEdge.label_of_identity same nofun)
    (second.grown.cellOf (cellOf_internPointer source))
    (cellOf_internPointer (first.grown.pointerIs target))

theorem link_quiet (s : State σ) (p : Program) (kind : FlowKind) (a b : Pointer) :
    s.Quiet (s.link p kind a b) :=
  ((internPointer_quiet s a).trans (internPointer_quiet _ b)).trans (addFlow_quiet _ p _)

theorem passReceiver_admitted {base this : PointerId} {receiver : CsObjId} (source : s.CellOf base x)
    (target : s.CellOf this y) (item : s.ItemOf receiver i) :
    (s.passReceiver base this receiver).Due (.admitted x y i) := by
  have grown := (passReceiver_quiet s base this receiver).grown
  obtain ⟨id, e, edge, ⟨label, rfl, rfl⟩, either⟩ := passReceiver_eq s base this receiver
  rw [State.pushEdge, ← edge?_passReceiver s e.source e.target receiver] at edge
  refine ⟨id, e, receiver, edge, label, grown.cellOf source, grown.cellOf target, grown.itemOf item, ?_⟩
  rcases either with ⟨admitted, _⟩ | ⟨_, equal⟩
  · exact EdgeStore.admits_iff.mpr (grown.receivers _ (EdgeStore.admits_iff.mp admitted))
  · rw [equal]
    exact EdgeStore.admits_iff.mpr List.mem_cons_self

theorem pushPoints_due {q : PointerId} {set : ObjSet} {o : CsObjId} (cell : s.CellOf q x) (item : s.ItemOf o i)
    (member : o ∈ set) : (s.pushPoints q set).Due (.points x i) :=
  ⟨q, o, cell, item, Or.inr (Or.inl (pending_pushPoints_self member))⟩

theorem foldl_done {α : Type v} {f : State σ → α → State σ} (valid : State σ → Prop) (done : State σ → α → Prop)
    (items : List α) (step : ∀ t, valid t → ∀ a ∈ items, valid (f t a) ∧ t.Keeps (f t a) ∧ done (f t a) a)
    (keep : ∀ t u a, t.Keeps u → done t a → done u a) (start : valid s) :
    valid (items.foldl f s) ∧ s.Keeps (items.foldl f s) ∧ ∀ a ∈ items, done (items.foldl f s) a := by
  induction items generalizing s with
  | nil => exact ⟨start, Keeps.refl s, fun _ member => absurd member List.not_mem_nil⟩
  | cons a rest ih =>
    obtain ⟨valid', keeps, first⟩ := step s start a List.mem_cons_self
    obtain ⟨last, kept, others⟩ :=
      ih (fun t known b member => step t known b (List.mem_cons_of_mem _ member)) valid'
    refine ⟨last, keeps.trans kept, fun b member => ?_⟩
    rcases List.mem_cons.mp member with rfl | later
    · exact keep _ _ _ kept first
    · exact others b later

end State

end PointsTo
