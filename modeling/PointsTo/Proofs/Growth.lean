import PointsTo.Proofs.Store
import PointsTo.Solver.Basic

/-!
How a state grows. Facts extend one another when nothing known is forgotten. A quiet change extends the
facts and adds to the work, but touches no points-to set, filter, call edge or registered method.
-/
namespace PointsTo

namespace Facts

variable {f g : Facts} {o : CsObjId} {d : ContextId × Obj} {obj : Obj}

/-- Everything that `f` knows, `g` knows as well, under the same handles. -/
structure Extends (f g : Facts) : Prop where
  rules : g.heap.rules = f.heap.rules
  objects : f.heap.objects ≤ g.heap.objects
  contexts : f.contexts.entries ≤ g.contexts.entries
  objs : f.elements.objs ≤ g.elements.objs
  sites : f.elements.sites ≤ g.elements.sites
  methods : f.elements.methods ≤ g.elements.methods
  pointers : f.elements.pointers ≤ g.elements.pointers
  edges : ∀ id e, f.flow.edge? id = some e → g.flow.edge? id = some e
  receivers : ∀ r ∈ f.flow.receivers, r ∈ g.flow.receivers
  entries : ∀ m ∈ f.calls.entries, m ∈ g.calls.entries
  reachable : ∀ m ∈ f.calls.reachable, m ∈ g.calls.reachable
  calls : ∀ e ∈ f.calls.edges, e ∈ g.calls.edges

theorem Extends.refl (f : Facts) : f.Extends f where
  rules := rfl
  objects := Table.le_refl _
  contexts := Table.le_refl _
  objs := Table.le_refl _
  sites := Table.le_refl _
  methods := Table.le_refl _
  pointers := Table.le_refl _
  edges := fun _ _ known => known
  receivers := fun _ known => known
  entries := fun _ known => known
  reachable := fun _ known => known
  calls := fun _ known => known

theorem Extends.trans {h : Facts} (first : f.Extends g) (second : g.Extends h) : f.Extends h where
  rules := second.rules.trans first.rules
  objects := Table.le_trans first.objects second.objects
  contexts := Table.le_trans first.contexts second.contexts
  objs := Table.le_trans first.objs second.objs
  sites := Table.le_trans first.sites second.sites
  methods := Table.le_trans first.methods second.methods
  pointers := Table.le_trans first.pointers second.pointers
  edges := fun id e known => second.edges id e (first.edges id e known)
  receivers := fun r known => second.receivers r (first.receivers r known)
  entries := fun m known => second.entries m (first.entries m known)
  reachable := fun m known => second.reachable m (first.reachable m known)
  calls := fun e known => second.calls e (first.calls e known)

theorem extends_addReachable (f : Facts) (m : CsMethodId) :
    f.Extends { f with calls := (f.calls.addReachable m).1 } := by
  rcases CallGraph.addReachable_cases f.calls m with ⟨_, equal⟩ | ⟨_, equal⟩
  · rw [equal]
    exact Extends.refl f
  · rw [equal]
    exact { Extends.refl f with reachable := fun _ known => List.mem_append_left _ known }

theorem extends_addEdge (f : Facts) (e : CallEdge) :
    f.Extends { f with calls := (f.calls.addEdge e).1 } := by
  rcases CallGraph.addEdge_cases f.calls e with ⟨_, equal⟩ | ⟨_, equal⟩
  · rw [equal]
    exact Extends.refl f
  · rw [equal]
    exact { Extends.refl f with calls := fun _ known => List.mem_append_left _ known }

theorem extends_addEntry (f : Facts) (m : CsMethodId) :
    f.Extends { f with calls := f.calls.addEntry m } := by
  rcases CallGraph.addEntry_cases f.calls m with ⟨_, equal⟩ | ⟨_, equal⟩
  · rw [equal]
    exact Extends.refl f
  · rw [equal]
    exact { Extends.refl f with entries := fun _ known => List.mem_append_left _ known }

def describe? (f : Facts) (o : CsObjId) : Option (ContextId × Obj) :=
  (f.elements.obj? o).bind fun entry => (f.heap.get? entry.2).map fun obj => (entry.1, obj)

theorem describe?_eq_some :
    f.describe? o = some d ↔
      ∃ id, f.elements.obj? o = some (d.1, id) ∧ f.heap.get? id = some d.2 := by
  obtain ⟨c, obj⟩ := d
  unfold describe?
  rw [Option.bind_eq_some_iff]
  constructor
  · rintro ⟨⟨c', id⟩, entry, mapped⟩
    obtain ⟨obj', known, equal⟩ := Option.map_eq_some_iff.mp mapped
    cases equal
    exact ⟨id, entry, known⟩
  · rintro ⟨id, entry, known⟩
    exact ⟨(c, id), entry, by simp [known]⟩

theorem obj?_of_describe? (known : f.describe? o = some d) : f.obj? o = some d.2 := by
  obtain ⟨id, entry, found⟩ := describe?_eq_some.mp known
  simp [obj?, entry, found]

theorem describe?_of_obj? (known : f.obj? o = some obj) : ∃ c, f.describe? o = some (c, obj) := by
  unfold obj? at known
  obtain ⟨⟨c, id⟩, entry, found⟩ := Option.bind_eq_some_iff.mp known
  exact ⟨c, describe?_eq_some.mpr ⟨id, entry, found⟩⟩

theorem describe?_inj {o' : CsObjId} (first : f.describe? o = some d) (second : f.describe? o' = some d) :
    o = o' := by
  obtain ⟨id, entry, found⟩ := describe?_eq_some.mp first
  obtain ⟨id', entry', found'⟩ := describe?_eq_some.mp second
  have same : id = id' := Table.get?_inj found found'
  subst same
  exact Table.get?_inj entry entry'

theorem Extends.describe? (grown : f.Extends g) (known : f.describe? o = some d) : g.describe? o = some d := by
  obtain ⟨id, entry, found⟩ := describe?_eq_some.mp known
  exact describe?_eq_some.mpr ⟨id, grown.objs _ _ entry, grown.objects _ _ found⟩

theorem Extends.obj? (grown : f.Extends g) (known : f.obj? o = some obj) : g.obj? o = some obj := by
  obtain ⟨c, described⟩ := describe?_of_obj? known
  exact obj?_of_describe? (grown.describe? described)

end Facts

namespace State

variable {σ : Type u} {s t : State σ}

def Holds (s : State σ) (p : PointerId) (o : CsObjId) : Prop := s.elements.Holds p o

def Pending (s : State σ) (p : PointerId) (o : CsObjId) : Prop := s.worklist.Pending p o

/-- A method is reachable, or a call of it waits. -/
def Awaits (s : State σ) (id : CsMethodId) : Prop :=
  id ∈ s.calls.reachable ∨ ∃ e ∈ s.worklist.calls, e.callee = id

structure Quiet (s t : State σ) : Prop where
  grown : s.toFacts.Extends t.toFacts
  pts : ∀ p, t.elements.pts? p = s.elements.pts? p
  filters : ∀ p, t.elements.filters p = s.elements.filters p
  calls : t.calls = s.calls
  seen : t.seen = s.seen
  refilter : t.refilter = s.refilter
  pending : ∀ p o, s.Pending p o → t.Pending p o
  waiting : ∀ e ∈ s.worklist.calls, e ∈ t.worklist.calls
  fresh : ∀ id x, t.elements.method? id = some x → s.elements.method? id = some x ∨ t.Awaits id
  queue : ∀ c ∈ s.queue, c ∈ t.queue

theorem Quiet.awaits (quiet : s.Quiet t) {id : CsMethodId} (known : s.Awaits id) : t.Awaits id := by
  rcases known with reachable | ⟨e, waiting, same⟩
  · exact Or.inl (quiet.calls ▸ reachable)
  · exact Or.inr ⟨e, quiet.waiting e waiting, same⟩

theorem Quiet.refl (s : State σ) : s.Quiet s :=
  ⟨Facts.Extends.refl _, fun _ => rfl, fun _ => rfl, rfl, rfl, rfl, fun _ _ known => known,
    fun _ known => known, fun _ _ known => Or.inl known, fun _ known => known⟩

theorem Quiet.trans {u : State σ} (first : s.Quiet t) (second : t.Quiet u) : s.Quiet u where
  grown := first.grown.trans second.grown
  pts := fun p => (second.pts p).trans (first.pts p)
  filters := fun p => (second.filters p).trans (first.filters p)
  calls := second.calls.trans first.calls
  seen := second.seen.trans first.seen
  refilter := second.refilter.trans first.refilter
  pending := fun p o known => second.pending p o (first.pending p o known)
  waiting := fun e known => second.waiting e (first.waiting e known)
  fresh := by
    intro id x known
    rcases second.fresh id x known with before | awaited
    · exact (first.fresh id x before).imp_right second.awaits
    · exact Or.inr awaited
  queue := fun c known => second.queue c (first.queue c known)

theorem Quiet.holds_iff (quiet : s.Quiet t) {p : PointerId} {o : CsObjId} : t.Holds p o ↔ s.Holds p o := by
  unfold Holds Elements.Holds
  rw [quiet.pts p]

variable (s : State σ)

theorem internObj_quiet (o : Obj) : s.Quiet (s.internObj o).1 :=
  { Quiet.refl s with
    grown := { Facts.Extends.refl s.toFacts with objects := Table.le_intern _ _ } }

theorem internCsObj_quiet (c : ContextId) (o : ObjId) : s.Quiet (s.internCsObj c o).1 :=
  { Quiet.refl s with
    grown := { Facts.Extends.refl s.toFacts with objs := Table.le_intern _ _ } }

theorem internSite_quiet (c : ContextId) (site : StmtRef) : s.Quiet (s.internSite c site).1 :=
  { Quiet.refl s with
    grown := { Facts.Extends.refl s.toFacts with sites := Table.le_intern _ _ } }

theorem internPointer_quiet (ptr : Pointer) : s.Quiet (s.internPointer ptr).1 where
  grown := {
    Facts.Extends.refl s.toFacts with
    objs := by
      change s.elements.objs ≤ (s.elements.internPointer ptr).1.objs
      rw [Elements.objs_internPointer]
      exact Table.le_refl _
    sites := by
      change s.elements.sites ≤ (s.elements.internPointer ptr).1.sites
      rw [Elements.sites_internPointer]
      exact Table.le_refl _
    methods := by
      change s.elements.methods ≤ (s.elements.internPointer ptr).1.methods
      rw [Elements.methods_internPointer]
      exact Table.le_refl _
    pointers := Elements.le_internPointer s.elements ptr }
  pts := Elements.pts?_internPointer s.elements ptr
  filters := Elements.filters_internPointer s.elements ptr
  calls := rfl
  seen := rfl
  refilter := rfl
  pending := fun _ _ known => known
  waiting := fun _ known => known
  fresh := by
    intro id x known
    change (s.elements.internPointer ptr).1.methods.get? id = some x at known
    rw [Elements.methods_internPointer] at known
    exact Or.inl known
  queue := fun _ known => known

theorem internDescribed_quiet (c : ContextId) (o : Obj) : s.Quiet (s.internDescribed c o).1 :=
  (internObj_quiet s o).trans (internCsObj_quiet _ c _)

theorem describe?_internDescribed (c : ContextId) (o : Obj) :
    (s.internDescribed c o).1.describe? (s.internDescribed c o).2 = some (c, o) :=
  Facts.describe?_eq_some.mpr
    ⟨(s.internObj o).2, Table.get?_intern_self _ _, Table.get?_intern_self s.heap.objects o⟩

theorem pushPoints_quiet (p : PointerId) (set : ObjSet) : s.Quiet (s.pushPoints p set) :=
  { Quiet.refl s with
    pending := fun _ _ known => Worklist.pending_pushPoints.mpr (Or.inl known)
    waiting := fun e known => by
      change e ∈ (s.worklist.pushPoints p set).calls
      rw [Worklist.calls_pushPoints]
      exact known
    fresh := fun _ _ known => Or.inl known }

theorem pushCall_quiet (e : CallEdge) : s.Quiet (s.pushCall e) :=
  { Quiet.refl s with
    waiting := fun _ known => List.mem_append_left _ known
    fresh := fun _ _ known => Or.inl known }

theorem internMethod_grown (c : ContextId) (m : MethodId) : s.toFacts.Extends (s.internMethod c m).1.toFacts :=
  { Facts.Extends.refl s.toFacts with methods := Table.le_intern _ _ }

theorem enlist_quiet (c : ContextId) (m : MethodId) (kind : CallKind) (site : CsSiteId) :
    s.Quiet ((s.internMethod c m).1.pushCall ⟨kind, site, (s.internMethod c m).2⟩) :=
  { Quiet.refl s with
    grown := internMethod_grown s c m
    waiting := fun _ known => List.mem_append_left _ known
    fresh := by
      intro id x known
      rcases Table.get?_intern_inv known with before | ⟨_, rfl⟩
      · exact Or.inl before
      · exact Or.inr (Or.inr ⟨_, List.mem_append_right _ (List.mem_singleton.mpr rfl), rfl⟩) }

theorem notify_quiet (cx : Setup σ) (e : Event) : s.Quiet (s.notify cx e) :=
  { Quiet.refl s with
    grown := { Facts.Extends.refl s.toFacts with objects := Table.le_internAll _ _ }
    queue := fun _ known => List.mem_append_left _ known }

theorem contexts_quiet (t : ContextTable) (above : s.contexts.entries ≤ t.entries) :
    s.Quiet { s with contexts := t } :=
  { Quiet.refl s with grown := { Facts.Extends.refl s.toFacts with contexts := above } }

end State

theorem ContextSpec.yields_calleeContext (spec : ContextSpec) (p : Program) (heap : Heap)
    (t : ContextTable) (caller : ContextId) (site : StmtRef) (receiver : Option Receiver) :
    t.Yields (spec.calleeContext p heap t caller site receiver) := by
  unfold calleeContext
  split
  · exact ContextTable.yields_self _ _
  · exact ContextTable.yields_append _ _ _ _
  · exact ContextTable.yields_truncate _ _ _
  · exact ContextTable.yields_truncate _ _ _
  · exact ContextTable.yields_append _ _ _ _
  · split
    · exact ContextTable.yields_append _ _ _ _
    · exact ContextTable.yields_truncate _ _ _

namespace Selector

theorem yields_calleeContext (sel : Selector) (p : Program) (heap : Heap) (t : ContextTable)
    (caller : ContextId) (site : StmtRef) (receiver : Option Receiver) (callee : MethodId) :
    t.Yields (sel.calleeContext p heap t caller site receiver callee) := by
  unfold calleeContext
  split
  · exact ContextSpec.yields_calleeContext _ _ _ _ _ _ _
  · exact ContextTable.yields_self _ _

theorem yields_heapContext (sel : Selector) (t : ContextTable) (c : ContextId) (m : MethodId) :
    t.Yields (sel.heapContext t c m) := by
  unfold heapContext
  split
  · exact ContextTable.yields_truncate _ _ _
  · exact ContextTable.yields_self _ _

end Selector

namespace State

variable {σ : Type u}

theorem selectCallee_quiet (s : State σ) (cx : Setup σ) (caller : ContextId) (site : StmtRef)
    (receiver : Option Receiver) (callee : MethodId) :
    s.Quiet (s.selectCallee cx caller site receiver callee).1 :=
  contexts_quiet s _ (Selector.yields_calleeContext _ _ _ _ _ _ _ _).above

theorem selectHeap_quiet (s : State σ) (cx : Setup σ) (c : ContextId) (m : MethodId) :
    s.Quiet (s.selectHeap cx c m).1 :=
  contexts_quiet s _ (Selector.yields_heapContext _ _ _ _).above

end State

end PointsTo
