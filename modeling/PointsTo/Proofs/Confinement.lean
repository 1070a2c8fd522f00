import PointsTo.Proofs.World

/-!
A run with confined handlers stays in its world: every rule of the solver makes its contexts, objects,
pointers and calls from those that the world has.
-/
namespace PointsTo

namespace World

variable {p : Program} {sel : Selector} {rules : HeapRules} {W : World p sel rules}

/-- A context table that keeps to the world, and a context in it. -/
def Gives (W : World p sel rules) (r : ContextTable × ContextId) : Prop :=
  r.1.entries.Within W.contexts ∧ W.HasContext r.2

section Contexts

variable {t : ContextTable} {c : ContextId} {elem : ContextElem} {site : StmtRef} {o : ObjId} {heap : Heap}

section

variable (within : t.entries.Within W.contexts)

include within

theorem gives_intern {elems : Context} (member : elems ∈ W.contexts) : W.Gives (t.intern elems) :=
  ⟨within.intern member, within.intern_lt member⟩

theorem elems_mem (c : ContextId) : t.elems c ∈ W.contexts := by
  unfold ContextTable.elems
  split
  · next elems known => exact within c elems known
  · exact mem_sequences.mpr ⟨Nat.zero_le _, List.forall_mem_nil _⟩

theorem gives_append (c : ContextId) {limit : Nat} (member : elem ∈ W.elems) (bound : limit ≤ sel.depth) :
    W.Gives (t.append c elem limit) := by
  unfold ContextTable.append
  split
  · exact ⟨within, W.hasContext_empty⟩
  · refine gives_intern within (mem_sequences.mpr ⟨?_, fun e listed => ?_⟩)
    · rw [Context.recent, List.length_drop]
      omega
    · rcases List.mem_append.mp (List.mem_of_mem_drop listed) with old | new
      · exact (mem_sequences.mp (elems_mem within c)).2 e old
      · exact List.mem_singleton.mp new ▸ member

theorem gives_truncate (known : W.HasContext c) (limit : Nat) : W.Gives (t.truncate c limit) := by
  unfold ContextTable.truncate
  split
  · exact ⟨within, known⟩
  · obtain ⟨short, inside⟩ := mem_sequences.mp (elems_mem within c)
    refine gives_intern within (mem_sequences.mpr ⟨?_, fun e listed => ?_⟩)
    · exact Nat.le_trans (List.length_drop ▸ Nat.sub_le _ _) short
    · exact inside e (List.mem_of_mem_drop listed)

end

theorem callSite_mem (member : site ∈ p.allSites) : .callSite site ∈ W.elems := by
  simp [elems, member]

theorem object_mem (bound : o < W.objs.card) : .object o ∈ W.elems := by
  simp [elems, bound]

theorem type_mem {obj : Obj} {c : ClassId} (member : obj ∈ W.objs) (type : typeOf? p obj = some c) :
    .type c ∈ W.elems := by
  simp only [elems, Finset.mem_union, Finset.mem_image, Finset.mem_eraseNone]
  exact Or.inr ⟨c, ⟨obj, member, type⟩, rfl⟩

theorem typeElem?_mem (within : heap.objects.Within W.objs) (found : Selector.typeElem? p heap o = some elem) :
    elem ∈ W.elems := by
  cases known : heap.get? o with
  | none => simp [Selector.typeElem?, known] at found
  | some obj =>
    rw [Facts.typeElem?_eq (f := { heap }) known] at found
    obtain ⟨c, type, rfl⟩ := Option.map_eq_some_iff.mp found
    exact type_mem (within o obj known) type

def HasReceiver (W : World p sel rules) (r : Receiver) : Prop :=
  W.HasContext r.context ∧ r.obj < W.objs.card

theorem gives_calleeContext (objects : heap.objects.Within W.objs) (within : t.entries.Within W.contexts)
    {caller : ContextId} (known : W.HasContext caller) (place : site ∈ p.allSites) {receiver : Option Receiver}
    (on : ∀ r ∈ receiver, W.HasReceiver r) (callee : MethodId) :
    W.Gives (sel.calleeContext p heap t caller site receiver callee) := by
  unfold Selector.calleeContext
  split
  · next spec chosen =>
    have bound := Selector.limit_le_depth chosen
    unfold ContextSpec.calleeContext
    split
    · exact ⟨within, W.hasContext_empty⟩
    · exact gives_append within _ (callSite_mem place) bound
    · exact gives_truncate within known _
    · exact gives_truncate within known _
    · next r => exact gives_append within _ (object_mem (on r rfl).2) bound
    · next r =>
      split
      · next elem found => exact gives_append within _ (typeElem?_mem objects found) bound
      · exact gives_truncate within (on r rfl).1 _
  · exact ⟨within, W.hasContext_empty⟩

theorem gives_heapContext (within : t.entries.Within W.contexts) (known : W.HasContext c)
    (m : MethodId) : W.Gives (sel.heapContext t c m) := by
  unfold Selector.heapContext
  split
  · exact gives_truncate within known _
  · exact ⟨within, W.hasContext_empty⟩

end Contexts

end World

namespace State

variable {σ : Type u} {cx : Setup σ} {rules : HeapRules} {C : Confinement cx rules} {s t : State σ}

theorem reach_unknown {id : CsMethodId} (unknown : s.elements.method? id = none) :
    s.reach cx id = s.marking id := by
  unfold State.reach State.marking
  simp [unknown]

/-- Everything found, on its way or asked for lies in the world. -/
structure Confined (C : Confinement cx rules) (s : State σ) : Prop extends s.toFacts.Confined C.world where
  pending : ∀ q o, s.Pending q o → s.Knows q ∧ C.world.HasObj o
  edges : ∀ id e, s.flow.edge? id = some e → s.Knows e.target ∧ C.world.Carries e.label
  waiting : ∀ e ∈ s.worklist.calls, e.site < C.world.csSites.card ∧ e.callee < C.world.csMethods.card
  queue : ∀ c ∈ s.queue, C.world.Takes c
  good : C.Good s.handler
  /-- Only the statements of registered methods have allocated objects. -/
  allocated : ∀ id o, s.heap.get? id = some o → ∀ site, o.site? = some site → site.method ∈ s.seen

namespace Confined

variable {o : Obj} {c caller context : ContextId} {site : StmtRef} {m callee : MethodId} {ptr a b : Pointer}
  {receiver : Option Receiver} {e : FlowEdge} {q : PointerId} {delta : ObjSet}
  {W : World cx.program cx.selector rules} {stmt : Stmt} {body : Body}

section

variable (confined : s.Confined C)

include confined

theorem allocated_intern (known : ∀ site, o.site? = some site → site.method ∈ s.seen) :
    ∀ id o', (s.heap.intern o).1.get? id = some o' → ∀ site, o'.site? = some site →
      site.method ∈ s.seen := by
  intro id o' found
  rcases Table.get?_intern_inv found with old | ⟨rfl, _⟩
  · exact confined.allocated id o' old
  · exact known

theorem notify (e : Event) (news : ∀ q delta, e = .arrived q delta → ∀ o ∈ delta, C.world.HasObj o) :
    (s.notify cx e).Confined C := by
  have answer := C.react e s.toFacts s.handler confined.toConfined news confined.good
  refine { confined with
    objects := confined.objects.internAll fun o made => (answer.created o made).1
    queue := List.forall_mem_append.mpr ⟨confined.queue, answer.commands⟩
    good := answer.state
    allocated := fun id o found site made => ?_ }
  rcases Table.get?_internAll_inv found with old | new
  · exact confined.allocated id o old site made
  · rw [(answer.created o new).2] at made
    cases made

theorem internObj (member : o ∈ C.world.objs) (known : ∀ site, o.site? = some site → site.method ∈ s.seen) :
    (s.internObj o).1.Confined C ∧ (s.internObj o).2 < C.world.objs.card :=
  ⟨{ confined with
    objects := confined.objects.intern member
    allocated := confined.allocated_intern known }, confined.objects.intern_lt member⟩

theorem internCsObj {o : ObjId} (known : C.world.HasContext c) (bound : o < C.world.objs.card) :
    (s.internCsObj c o).1.Confined C ∧ C.world.HasObj (s.internCsObj c o).2 := by
  have member := C.world.mem_csObjs.mpr ⟨known, bound⟩
  exact ⟨{ confined with objs := confined.objs.intern member }, confined.objs.intern_lt member⟩

theorem internDescribed (known : C.world.HasContext c) (foreign : C.world.Foreign o) :
    (s.internDescribed c o).1.Confined C ∧ C.world.HasObj (s.internDescribed c o).2 := by
  obtain ⟨confined', bound⟩ := confined.internObj foreign.1 fun site made => by
    rw [foreign.2] at made
    cases made
  exact confined'.internCsObj known bound

theorem internSite (known : C.world.HasContext c) (place : site ∈ cx.program.allSites) :
    (s.internSite c site).1.Confined C ∧ (s.internSite c site).2 < C.world.csSites.card := by
  have member := C.world.mem_csSites.mpr ⟨known, place⟩
  exact ⟨{ confined with sites := confined.sites.intern member }, confined.sites.intern_lt member⟩

theorem internMethod (known : C.world.HasContext c) (declared : m ∈ cx.program.allMethods) :
    (s.internMethod c m).1.Confined C ∧ (s.internMethod c m).2 < C.world.csMethods.card := by
  have member := C.world.mem_csMethods.mpr ⟨known, declared⟩
  exact ⟨{ confined with methods := confined.methods.intern member }, confined.methods.intern_lt member⟩

theorem internPointer (member : ptr ∈ C.world.pointers) :
    (s.internPointer ptr).1.Confined C ∧ (s.internPointer ptr).1.Knows (s.internPointer ptr).2 := by
  have quiet := internPointer_quiet s ptr
  refine ⟨{ confined with
    objs := ?_, sites := ?_, methods := ?_, pointers := ?_
    held := fun q o held => confined.held q o (quiet.holds_iff.mp held)
    pending := fun q o pending => (confined.pending q o pending).imp_left quiet.knows
    edges := fun id e edge => (confined.edges id e edge).imp_left quiet.knows },
    internPointer_knows s ptr⟩
  · exact (Elements.objs_internPointer s.elements ptr).symm ▸ confined.objs
  · exact (Elements.sites_internPointer s.elements ptr).symm ▸ confined.sites
  · exact (Elements.methods_internPointer s.elements ptr).symm ▸ confined.methods
  · exact (Elements.pointers_internPointer s.elements ptr).1.symm ▸ confined.pointers.intern member

theorem selectCallee (known : C.world.HasContext caller) (place : site ∈ cx.program.allSites)
    (on : ∀ r ∈ receiver, C.world.HasReceiver r) (callee : MethodId) :
    (s.selectCallee cx caller site receiver callee).1.Confined C ∧
      C.world.HasContext (s.selectCallee cx caller site receiver callee).2 := by
  obtain ⟨within, chosen⟩ :=
    World.gives_calleeContext confined.objects confined.contexts known place on callee
  exact ⟨{ confined with contexts := within }, chosen⟩

theorem selectHeap (known : C.world.HasContext c) (m : MethodId) :
    (s.selectHeap cx c m).1.Confined C ∧ C.world.HasContext (s.selectHeap cx c m).2 := by
  obtain ⟨within, chosen⟩ := World.gives_heapContext confined.contexts known m
  exact ⟨{ confined with contexts := within }, chosen⟩

theorem pushCall {e : CallEdge} (site : e.site < C.world.csSites.card)
    (callee : e.callee < C.world.csMethods.card) : (s.pushCall e).Confined C :=
  { confined with
    waiting := List.forall_mem_append.mpr
      ⟨confined.waiting, List.forall_mem_singleton.mpr ⟨site, callee⟩⟩ }

theorem pushPoints {set : ObjSet} (known : s.Knows q) (inside : ∀ o ∈ set, C.world.HasObj o) :
    (s.pushPoints q set).Confined C := by
  refine { confined with pending := fun r o pending => ?_, waiting := ?_ }
  · rcases Worklist.pending_pushPoints.mp pending with old | ⟨rfl, member⟩
    · exact confined.pending r o old
    · exact ⟨known, inside o member⟩
  · exact (Worklist.calls_pushPoints s.worklist q set).symm ▸ confined.waiting

theorem pushEdge (known : s.Knows e.target) (carries : C.world.Carries e.label) : (s.pushEdge e).Confined C := by
  refine { confined with edges := fun id d edge => ?_ }
  rcases EdgeStore.edge?_add_inv edge with old | ⟨_, rfl⟩
  · exact confined.edges id d old
  · exact ⟨known, carries⟩

theorem described {o : CsObjId} {d : ContextId × Obj} (known : s.describe? o = some d) :
    C.world.HasContext d.1 ∧ d.2 ∈ C.world.objs := by
  obtain ⟨id, entry, found⟩ := Facts.describe?_eq_some.mp known
  exact ⟨(C.world.mem_csObjs.mp (confined.objs o _ entry)).1, confined.objects id d.2 found⟩

theorem transferAll {t : Transfer}
    (stays : ∀ c o d o', C.world.HasContext c → o ∈ C.world.objs → t c o = some (d, o') →
      C.world.HasContext d ∧ C.world.Foreign o') (os : List CsObjId) :
    (s.transferAll t os).1.Confined C ∧ ∀ o ∈ (s.transferAll t os).2, C.world.HasObj o := by
  induction os generalizing s with
  | nil => exact ⟨confined, List.forall_mem_nil _⟩
  | cons o rest ih =>
    cases known : s.describe? o with
    | none =>
      rw [transferAll_cons_unknown known]
      exact ih confined
    | some d =>
      rw [transferAll_cons known]
      obtain ⟨context, member⟩ := confined.described known
      cases made : t d.1 d.2 with
      | none => exact ih confined
      | some made' =>
        obtain ⟨context', member'⟩ := stays d.1 d.2 made'.1 made'.2 context member made
        obtain ⟨confined', bound⟩ := confined.internDescribed context' member'
        obtain ⟨later, others⟩ := ih confined'
        exact ⟨later, List.forall_mem_cons.mpr ⟨bound, others⟩⟩

theorem flowOver (id : EdgeId) {set : ObjSet} (inside : ∀ o ∈ set, C.world.HasObj o) :
    (s.flowOver cx.program id set).1.Confined C ∧
      ∀ o ∈ (s.flowOver cx.program id set).2, C.world.HasObj o := by
  unfold State.flowOver
  split
  · exact ⟨confined, fun o member => inside o (ObjSet.mem_filter.mp member).1⟩
  · exact ⟨confined, fun o member => inside o (ObjSet.mem_filter.mp member).1⟩
  · next info label =>
    split
    · next t transfer =>
      obtain ⟨e, edge, same⟩ := Option.map_eq_some_iff.mp label
      have carries := (confined.edges id e edge).2
      rw [same] at carries
      obtain ⟨confined', made⟩ := confined.transferAll (carries t transfer) set.toList
      exact ⟨confined', fun o member => made o (ObjSet.mem_ofList.mp member)⟩
    · exact ⟨confined, inside⟩
  · exact ⟨confined, inside⟩
  · exact ⟨confined, fun o member => absurd member (ObjSet.not_mem_empty o)⟩

theorem send (id : EdgeId) {set : ObjSet} (inside : ∀ o ∈ set, C.world.HasObj o) :
    (s.send cx.program set id).Confined C := by
  obtain ⟨confined', crossed⟩ := confined.flowOver id inside
  unfold State.send
  dsimp only
  split
  · next e edge => exact confined'.pushPoints (confined'.edges id e edge).1 crossed
  · exact confined'

theorem sendAll (q : PointerId) {set : ObjSet} (inside : ∀ o ∈ set, C.world.HasObj o) :
    (s.sendAll cx.program q set).Confined C :=
  List.foldlRecOn (motive := Confined C) _ _ confined fun _ known id _ => known.send id inside

theorem addFlow (known : s.Knows e.target) (carries : C.world.Carries e.label) :
    (s.addFlow cx.program e).Confined C :=
  addFlow_keeps (P := Confined C) confined (confined.pushEdge known carries) fun _ id pts confined' found =>
    confined'.send id fun o member => confined.held e.source o ⟨pts, found, member⟩

theorem link (kind : FlowKind) (source : a ∈ C.world.pointers) (target : b ∈ C.world.pointers) :
    (s.link cx.program kind a b).Confined C := by
  obtain ⟨confined₁, _⟩ := confined.internPointer source
  obtain ⟨confined₂, known⟩ := confined₁.internPointer target
  exact confined₂.addFlow known trivial

theorem passReceiver {base this : PointerId} {receiver : CsObjId} (known : s.Knows this)
    (bound : C.world.HasObj receiver) : (s.passReceiver base this receiver).Confined C := by
  have added := confined.pushEdge (e := FlowEdge.plain .thisPassing base this) known trivial
  refine passReceiver_keeps added fun id => ?_
  have admitted : ((s.pushEdge (FlowEdge.plain .thisPassing base this)).admitting id receiver).Confined C :=
    { added with }
  exact admitted.pushPoints known fun o member => ObjSet.mem_singleton.mp member ▸ bound

theorem callTo (kind : CallKind) (known : C.world.HasContext context) (place : site ∈ cx.program.allSites)
    (on : ∀ r ∈ receiver, C.world.HasReceiver r) (declared : callee ∈ cx.program.allMethods) :
    (s.callTo cx kind context site receiver callee).1.Confined C ∧
      C.world.HasContext (s.callTo cx kind context site receiver callee).2 := by
  obtain ⟨confined₁, chosen⟩ := confined.selectCallee known place on callee
  obtain ⟨confined₂, csSite⟩ := confined₁.internSite known place
  obtain ⟨confined₃, csMethod⟩ := confined₂.internMethod chosen declared
  exact ⟨confined₃.pushCall csSite csMethod, chosen⟩

theorem callOn (base : PointerId) (call : Invoke) {receiver : CsObjId} (known : C.world.HasContext context)
    (place : site ∈ cx.program.allSites) (bound : C.world.HasObj receiver) :
    (s.callOn cx context base site call receiver).Confined C := by
  unfold State.callOn
  split
  · next heapContext id obj entry _ =>
    split
    · exact confined
    · split
      · exact confined.notify _ fun _ _ same => by cases same
      · next callee found =>
        have on : ∀ r ∈ some (Receiver.mk heapContext id), C.world.HasReceiver r :=
          fun r same => Option.some.inj same ▸ C.world.mem_csObjs.mp (confined.objs _ _ entry)
        obtain ⟨confined', chosen⟩ := confined.callTo (CallKind.ofInvoke call.kind) known place on
          (Program.callee?_mem found)
        dsimp only
        split
        · exact confined'
        · next this receives =>
          have inside := Program.mem_allVars (Program.mentions_this receives)
          obtain ⟨confined'', there⟩ :=
            confined'.internPointer (C.world.var_mem.mpr ⟨chosen, inside⟩)
          exact confined''.passReceiver there bound
  · exact confined

theorem callOnAll (base : PointerId) (call : Invoke) (known : C.world.HasContext context)
    (place : site ∈ cx.program.allSites) (inside : ∀ o ∈ delta, C.world.HasObj o) :
    (s.callOnAll cx context base site call delta).Confined C :=
  List.foldlRecOn (motive := Confined C) _ _ (confined.internSite known place).1
    fun _ confined' o member => confined'.callOn base call known place (inside o member)

theorem callStatic (call : Invoke) (known : C.world.HasContext context) (place : site ∈ cx.program.allSites) :
    (s.callStatic cx context site call).Confined C := by
  unfold State.callStatic
  split
  · exact confined.notify _ fun _ _ same => by cases same
  · next callee resolved =>
    have on : ∀ r ∈ (none : Option Receiver), C.world.HasReceiver r := by simp
    exact (confined.callTo _ known place on (Program.resolve?_mem resolved)).1

end

theorem accessFlow?_mem {o : CsObjId} {kind : FlowKind} (known : cx.program.stmt? site = some stmt)
    (there : W.HasContext context) (bound : W.HasObj o)
    (accesses : accessFlow? context o stmt = some (kind, a, b)) : a ∈ W.pointers ∧ b ∈ W.pointers := by
  have used := fun v read => Program.mem_allVars (Program.mentions_of_stmt known (v := v) (Or.inl read))
  have set := fun v written =>
    Program.mem_allVars (Program.mentions_of_stmt known (v := v) (Or.inr written))
  have field := fun f accessed => W.accessed site stmt f known accessed
  cases stmt with
  | loadField lhs base f =>
    cases accesses
    exact ⟨W.field_mem.mpr ⟨bound, field f rfl⟩, W.var_mem.mpr ⟨there, set lhs rfl⟩⟩
  | storeField base f rhs =>
    cases accesses
    exact ⟨W.var_mem.mpr ⟨there, used rhs (by simp [Stmt.uses])⟩, W.field_mem.mpr ⟨bound, field f rfl⟩⟩
  | loadArray lhs base =>
    cases accesses
    exact ⟨W.element_mem.mpr bound, W.var_mem.mpr ⟨there, set lhs rfl⟩⟩
  | storeArray base rhs =>
    cases accesses
    exact ⟨W.var_mem.mpr ⟨there, used rhs (by simp [Stmt.uses])⟩, W.element_mem.mpr bound⟩
  | _ => cases accesses

section

variable (confined : s.Confined C)

include confined

theorem accessAll {stmts : List (StmtRef × Stmt)} {o : CsObjId} (known : C.world.HasContext context)
    (listed : ∀ x ∈ stmts, cx.program.stmt? x.1 = some x.2) (bound : C.world.HasObj o) :
    (s.accessAll cx.program context stmts o).Confined C := by
  refine accessAll_induct confined fun t confined' x member kind a b accesses => ?_
  obtain ⟨source, target⟩ := accessFlow?_mem (listed x member) known bound accesses
  exact confined'.link kind source target

theorem useDelta (v : VarId) (q : PointerId) (known : C.world.HasContext context)
    (inside : ∀ o ∈ delta, C.world.HasObj o) : (s.useDelta cx context v q delta).Confined C := by
  have listed : ∀ x ∈ s.basedOn cx.program v, cx.program.stmt? x.1 = some x.2 := by
    intro x member
    obtain ⟨m, _, here⟩ := List.mem_flatMap.mp (List.mem_filter.mp member).1
    exact (Program.mem_stmtRefs.mp here).2
  refine List.foldlRecOn (motive := Confined C) _ _ ?_ fun t confined₁ x member => ?_
  · exact List.foldlRecOn (motive := Confined C) _ _ confined fun t confined₁ o member =>
      confined₁.accessAll known listed (inside o member)
  · obtain ⟨site, stmt⟩ := x
    cases stmt with
    | invoke call =>
      exact confined₁.callOnAll q call known (Program.mem_allSites (listed _ member)) inside
    | _ => exact confined₁

theorem place {o : CsObjId} (member : ptr ∈ C.world.pointers) (bound : C.world.HasObj o) :
    ((s.internPointer ptr).1.pushPoints (s.internPointer ptr).2 (ObjSet.singleton o)).Confined C := by
  obtain ⟨confined', known⟩ := confined.internPointer member
  exact confined'.pushPoints known fun o' same => ObjSet.mem_singleton.mp same ▸ bound

theorem runStmt (known : C.world.HasContext context) (there : cx.program.stmt? site = some stmt)
    (seen : site.method ∈ s.seen) : (s.runStmt cx context site stmt).Confined C := by
  have here := Program.mem_allSites there
  have used : ∀ v ∈ stmt.uses, .var context v ∈ C.world.pointers := fun v read =>
    C.world.var_mem.mpr ⟨known, Program.mem_allVars (Program.mentions_of_stmt there (Or.inl read))⟩
  have set : ∀ v, stmt.target? = some v → .var context v ∈ C.world.pointers := fun v written =>
    C.world.var_mem.mpr ⟨known, Program.mem_allVars (Program.mentions_of_stmt there (Or.inr written))⟩
  have field : ∀ f, stmt.field? = some f → .static f ∈ C.world.pointers := fun f accessed =>
    C.world.static_mem.mpr (C.world.accessed site stmt f there accessed)
  cases stmt with
  | new lhs ty =>
    have member : s.heap.rules.allocated site ty ∈ C.world.objs := by
      rw [confined.rules]
      exact C.world.allocated site lhs ty there
    have own : ∀ place, (s.heap.rules.allocated site ty).site? = some place → place.method ∈ s.seen := by
      intro place made
      unfold HeapRules.allocated at made
      split at made
      · cases made
      · cases made
        exact seen
    obtain ⟨confined₁, id⟩ := confined.internObj member own
    obtain ⟨confined₂, heap⟩ := confined₁.selectHeap known site.method
    obtain ⟨confined₃, bound⟩ := confined₂.internCsObj heap id
    exact confined₃.place (set lhs rfl) bound
  | literal lhs value =>
    have constant : value.isConstant = true → C.world.Foreign (s.heap.rules.constant value) := fun kind => by
      rw [confined.rules]
      exact ⟨C.world.constant site lhs value there kind, rfl⟩
    cases value with
    | str _ | cls _ =>
      obtain ⟨confined₁, bound⟩ := confined.internDescribed C.world.hasContext_empty (constant rfl)
      exact confined₁.place (set lhs rfl) bound
    | _ => exact confined
  | copy lhs rhs => exact confined.link _ (used rhs (by simp [Stmt.uses])) (set lhs rfl)
  | cast lhs rhs ty =>
    obtain ⟨confined₁, _⟩ := confined.internPointer (used rhs (by simp [Stmt.uses]))
    obtain ⟨confined₂, target⟩ := confined₁.internPointer (set lhs rfl)
    exact confined₂.addFlow target trivial
  | loadStatic lhs f => exact confined.link _ (field f rfl) (set lhs rfl)
  | storeStatic f rhs => exact confined.link _ (used rhs (by simp [Stmt.uses])) (field f rfl)
  | invoke call =>
    simp only [State.runStmt]
    split
    · exact confined.callStatic call known here
    · exact confined
  | _ => exact confined

theorem registerMethod (m : MethodId) :
    (s.registerMethod cx m).Confined C ∧ m ∈ (s.registerMethod cx m).seen := by
  unfold State.registerMethod
  split
  · next known => exact ⟨confined, List.contains_iff_mem.mp known⟩
  · have noted : State.Confined C { s with seen := s.seen ++ [m] } := { confined with
      allocated := fun id o found site made =>
        List.mem_append_left _ (confined.allocated id o found site made) }
    have told := noted.notify (.methodReached m) fun _ _ same => by cases same
    have new : m ∈ s.seen ++ [m] := List.mem_append_right _ List.mem_cons_self
    refine List.foldlRecOn (motive := fun t : State σ => t.Confined C ∧ m ∈ t.seen) _ _ ⟨told, new⟩ ?_
    rintro t ⟨confined', seen⟩ x _
    exact ⟨confined'.notify _ (fun _ _ same => by cases same), seen⟩

theorem reach (id : CsMethodId) : (s.reach cx id).Confined C := by
  have marked : (s.marking id).Confined C := { confined with }
  by_cases before : id ∈ s.calls.reachable
  · rw [reach_known before]
    exact confined
  cases known : s.elements.method? id with
  | none =>
    rw [reach_unknown known]
    exact marked
  | some x =>
    obtain ⟨context, m⟩ := x
    rw [reach_new before known]
    have there := (C.world.mem_csMethods.mp (confined.methods id _ known)).1
    refine notify ?_ _ fun _ _ same => by cases same
    refine (List.foldlRecOn (motive := fun t : State σ => t.Confined C ∧ m ∈ t.seen) _ _
      (marked.registerMethod m) ?_).1
    rintro t ⟨confined', seen⟩ ⟨site, stmt⟩ member
    obtain ⟨rfl, here⟩ := Program.mem_stmtRefs.mp member
    exact ⟨confined'.runStmt there here seen, (runStmt_safe t cx context site stmt).seen ▸ seen⟩

theorem passArguments {callee : ContextId} {call : Invoke} (from_ : C.world.HasContext caller)
    (to_ : C.world.HasContext callee) (calls : cx.program.invoke? site = some call)
    (code : cx.program.body? m = some body) :
    (s.passArguments cx.program caller call callee body).Confined C := by
  have there := Program.stmt?_of_invoke? calls
  have arg : ∀ v ∈ call.args, .var caller v ∈ C.world.pointers := fun v passed =>
    C.world.var_mem.mpr ⟨from_, Program.mem_allVars
      (Program.mentions_of_stmt there (Or.inl (List.mem_append_right _ passed)))⟩
  refine passArguments_induct confined (fun t confined' x member => ?_)
    fun t confined' result answer r member => ?_
  · obtain ⟨first, second⟩ := List.of_mem_zip member
    exact confined'.link _ (arg _ first) (C.world.var_mem.mpr
      ⟨to_, Program.mem_allVars (Program.mentions_param code second)⟩)
  · exact confined'.link _
      (C.world.var_mem.mpr ⟨to_, Program.mem_allVars (Program.mentions_returned code member)⟩)
      (C.world.var_mem.mpr ⟨from_, Program.mem_allVars (Program.mentions_of_stmt there (Or.inr answer))⟩)

theorem processCall (e : CallEdge) : (s.processCall cx e).Confined C := by
  by_cases before : e ∈ s.calls.edges
  · rw [processCall_known before]
    exact confined
  rw [processCall_new before]
  refine notify ?_ _ fun _ _ same => by cases same
  have recorded : (s.recording e).Confined C := { confined with }
  have reached := recorded.reach e.callee
  unfold passing
  split
  · exact reached
  · split
    · next caller site callee m place method =>
      split
      · next call body calls code =>
        exact reached.passArguments (C.world.mem_csSites.mp (reached.sites _ _ place)).1
          (C.world.mem_csMethods.mp (reached.methods _ _ method)).1 calls code
      · exact reached
    · exact reached

theorem processPoints {set : ObjSet} (arrives : ∀ o ∈ set, s.Knows q ∧ C.world.HasObj o) :
    (s.processPoints cx q set).Confined C := by
  have filled : (s.filled q set).Confined C := by
    refine { confined with held := fun r o held => ?_ }
    rcases (holds_filled fun o member => (arrives o member).1).mp held with old | ⟨_, member⟩
    · exact confined.held r o old
    · exact (arrives o (subset_of_admitted member)).2
  have fresh : ∀ o ∈ s.news q set, C.world.HasObj o := fun o member =>
    (arrives o (subset_of_admitted (mem_news.mp member).1)).2
  rw [processPoints_eq]
  split
  · exact filled
  · refine notify ?_ _ fun r delta same => by cases same; exact fresh
    have sent := filled.sendAll q fresh
    unfold applying
    split
    · next context v found =>
      exact sent.useDelta v q (C.world.var_mem.mp (sent.pointers _ _ found)).1 fresh
    · exact sent

theorem resolveObj {r : ObjRef} (has : C.world.HasRef r) :
    (s.resolveObj r).1.Confined C ∧ C.world.HasObj (s.resolveObj r).2 := by
  cases r with
  | interned o => exact ⟨confined, has⟩
  | described c o => exact confined.internDescribed has.1 has.2

theorem resolveObjs {rs : List ObjRef} (has : ∀ r ∈ rs, C.world.HasRef r) :
    (s.resolveObjs rs).1.Confined C ∧ ∀ o ∈ (s.resolveObjs rs).2, C.world.HasObj o := by
  induction rs generalizing s with
  | nil => exact ⟨confined, List.forall_mem_nil _⟩
  | cons r rest ih =>
    obtain ⟨first, others⟩ := List.forall_mem_cons.mp has
    obtain ⟨confined', bound⟩ := confined.resolveObj first
    obtain ⟨later, bounds⟩ := ih confined' others
    exact ⟨later, List.forall_mem_cons.mpr ⟨bound, bounds⟩⟩

theorem resolvePointer {r : PointerRef} (has : C.world.HasPointer r) :
    (s.resolvePointer r).1.Confined C ∧ (s.resolvePointer r).1.Knows (s.resolvePointer r).2 := by
  cases r with
  | interned q => exact has.elim
  | var c v => exact confined.internPointer (C.world.var_mem.mpr has)
  | static f => exact confined.internPointer (C.world.static_mem.mpr has)
  | field base f =>
    obtain ⟨confined', bound⟩ := confined.resolveObj has.1
    exact confined'.internPointer (C.world.field_mem.mpr ⟨bound, has.2⟩)
  | element array =>
    obtain ⟨confined', bound⟩ := confined.resolveObj has
    exact confined'.internPointer (C.world.element_mem.mpr bound)

theorem seed (known : s.Knows q) (member : C.world.Foreign o) : (s.seed q o).Confined C := by
  obtain ⟨confined', bound⟩ := confined.internDescribed C.world.hasContext_empty member
  exact confined'.pushPoints ((internDescribed_quiet s _ o).knows known)
    fun o' same => ObjSet.mem_singleton.mp same ▸ bound

end

theorem start_mem {v : VarId} (code : cx.program.body? m = some body) (member : v ∈ body.mentioned) :
    .var ContextTable.emptyId v ∈ W.pointers :=
  W.var_mem.mpr ⟨W.hasContext_empty, Program.mem_allVars ⟨body, code, member⟩⟩

theorem seedThis (confined : s.Confined C) {objs : List Obj} (code : cx.program.body? m = some body)
    (members : ∀ o ∈ objs, C.world.Foreign o) : (s.seedThis body objs).Confined C := by
  unfold State.seedThis
  split
  · exact confined
  · next this receives =>
    have member : this ∈ body.mentioned := by simp [Body.mentioned, receives]
    obtain ⟨confined₁, known⟩ := confined.internPointer (start_mem code member)
    have plain : ∀ r ∈ objs.map ObjRef.plain, C.world.HasRef r := by
      intro r listed
      obtain ⟨o, member, rfl⟩ := List.mem_map.mp listed
      exact ⟨C.world.hasContext_empty, members o member⟩
    obtain ⟨confined₂, bounds⟩ := confined₁.resolveObjs plain
    exact confined₂.pushPoints ((resolveObjs_hush _ _).toQuiet.knows known)
      fun o member => bounds o (ObjSet.mem_ofList.mp member)

theorem seedParam (confined : s.Confined C) {i : Nat} (code : cx.program.body? m = some body)
    (member : C.world.Foreign o) : (s.seedParam body i o).Confined C := by
  unfold State.seedParam
  split
  · exact confined
  · next param place =>
    have mentioned : param ∈ body.mentioned := by
      simp [Body.mentioned, List.mem_of_getElem? place]
    obtain ⟨confined', known⟩ := confined.internPointer (start_mem code mentioned)
    exact confined'.seed known member

theorem enter (confined : s.Confined C) {entry : EntryPoint} (has : C.world.HasEntry entry) :
    (s.enter cx entry).Confined C := by
  obtain ⟨known, _⟩ := confined.internMethod C.world.hasContext_empty has.method
  have noted : (s.noting entry.method).Confined C := { known with }
  have reached := noted.reach (s.internMethod ContextTable.emptyId entry.method).2
  cases code : cx.program.body? entry.method with
  | none =>
    rw [enter_bare s code]
    exact reached
  | some body =>
    rw [enter_body s code]
    refine seedAll_induct (reached.seedThis code has.this)
      (fun t confined' a member => confined'.seedParam code (has.params a member))
      (fun t confined' a member => ?_) fun t confined' a member => ?_
    · obtain ⟨base, field, obj⟩ := has.fields a member
      obtain ⟨confined₁, bound⟩ := confined'.internDescribed C.world.hasContext_empty base
      obtain ⟨confined₂, there⟩ := confined₁.internPointer (C.world.field_mem.mpr ⟨bound, field⟩)
      exact confined₂.seed there obj
    · obtain ⟨array, obj⟩ := has.elements a member
      obtain ⟨confined₁, bound⟩ := confined'.internDescribed C.world.hasContext_empty array
      obtain ⟨confined₂, there⟩ := confined₁.internPointer (C.world.element_mem.mpr bound)
      exact confined₂.seed there obj

theorem addCall (confined : s.Confined C) (kind : CallKind) {receiver : Option CsObjId}
    (known : C.world.HasContext context) (place : site ∈ cx.program.allSites)
    (declared : callee ∈ cx.program.allMethods) (bound : ∀ o ∈ receiver, C.world.HasObj o) :
    (s.addCall cx kind context site callee receiver).Confined C := by
  have on : ∀ r ∈ (receiver.bind s.elements.obj?).map fun x => Receiver.mk x.1 x.2,
      C.world.HasReceiver r := by
    intro r found
    obtain ⟨x, entry, rfl⟩ := Option.map_eq_some_iff.mp found
    obtain ⟨o, _, entry⟩ := Option.bind_eq_some_iff.mp entry
    exact C.world.mem_csObjs.mp (confined.objs o _ entry)
  obtain ⟨confined', chosen⟩ := confined.callTo kind known place on declared
  unfold State.addCall
  dsimp only
  split
  · next o this receives =>
    obtain ⟨confined'', there⟩ := confined'.internPointer (C.world.var_mem.mpr
      ⟨chosen, Program.mem_allVars (Program.mentions_this receives)⟩)
    exact confined''.pushPoints there fun o' same => ObjSet.mem_singleton.mp same ▸ bound o rfl
  · exact confined'

theorem apply (confined : s.Confined C) {c : Command} (takes : C.world.Takes c) :
    (s.apply cx c).Confined C := by
  cases c with
  | addPointsTo pointer objs =>
    obtain ⟨confined₁, known⟩ := confined.resolvePointer takes.1
    obtain ⟨confined₂, bounds⟩ := confined₁.resolveObjs takes.2
    exact confined₂.pushPoints ((resolveObjs_hush _ _).toQuiet.knows known)
      fun o member => bounds o (ObjSet.mem_ofList.mp member)
  | addEntryPoint entry => exact confined.enter takes
  | addFilter pointer keep =>
    obtain ⟨confined₁, known⟩ := confined.resolvePointer takes
    have attached :
        ((s.resolvePointer pointer).1.attaching (s.resolvePointer pointer).2 keep).Confined C := by
      refine { confined₁ with held := fun q o held => ?_ }
      obtain ⟨set, found, member⟩ := held
      rw [attaching, Elements.pts?_addFilter] at found
      exact confined₁.held q o ⟨set, found, member⟩
    simp only [State.apply]
    split
    · split
      · exact attached
      · exact { attached with }
    · exact attached
  | addFlow label source target =>
    obtain ⟨confined₁, _⟩ := confined.resolvePointer takes.2.1
    obtain ⟨confined₂, known⟩ := confined₁.resolvePointer takes.2.2
    exact confined₂.addFlow known (by rw [FlowEdge.label_mk]; exact takes.1)
  | addCall kind context site callee receiver =>
    obtain ⟨known, place, declared, bound⟩ := takes
    cases receiver with
    | none =>
      have nothing : ∀ o ∈ (none : Option CsObjId), C.world.HasObj o := by simp
      exact confined.addCall kind known place declared nothing
    | some r =>
      obtain ⟨confined', bound'⟩ := confined.resolveObj (bound r rfl)
      exact confined'.addCall kind known place declared fun o same => Option.some.inj same ▸ bound'
  | propagate pointer =>
    obtain ⟨confined', _⟩ := confined.resolvePointer takes
    simp only [State.apply]
    split
    · next pts found => exact confined'.sendAll _ fun o member => confined'.held _ o ⟨pts, found, member⟩
    · exact confined'

end Confined

end State

end PointsTo
