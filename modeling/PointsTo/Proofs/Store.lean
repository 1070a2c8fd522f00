import PointsTo.Handler
import PointsTo.Proofs.ObjSet
import PointsTo.Proofs.Table
import PointsTo.Worklist

/-!
The containers of a run: slots of pointers, the flow graph and the worklist. Each is described by
what can be looked up in it before and after an operation.
-/
namespace PointsTo

namespace Elements

variable {e : Elements} {p q : PointerId} {ptr : Pointer} {keep other : Obj → Bool}

/-- The points-to set of `p` holds `o`. -/
def Holds (e : Elements) (p : PointerId) (o : CsObjId) : Prop := ∃ set, e.pts? p = some set ∧ o ∈ set

theorem slot_none_of_unknown (unknown : e.pointer? p = none) : e.slots[p]? = none := by
  rw [pointer?, Table.get?, Array.getElem?_eq_none_iff] at unknown
  rw [Array.getElem?_eq_none_iff, e.slots_size]
  exact unknown

theorem known_of_pts? {set : ObjSet} (found : e.pts? p = some set) : ∃ ptr, e.pointer? p = some ptr := by
  cases known : e.pointer? p with
  | some ptr => exact ⟨ptr, rfl⟩
  | none => simp [pts?, slot_none_of_unknown known] at found

theorem slot_some_of_known (known : e.pointer? p = some ptr) : ∃ slot, e.slots[p]? = some slot := by
  have bound := (Array.getElem?_eq_some_iff.mp known).1
  have room : p < e.slots.size := by
    rw [e.slots_size]
    exact bound
  exact ⟨e.slots[p], Array.getElem?_eq_getElem room⟩

theorem pointer?_internPointer_self (e : Elements) (ptr : Pointer) :
    (e.internPointer ptr).1.pointer? (e.internPointer ptr).2 = some ptr := by
  unfold internPointer
  split
  · next i found => exact Table.find?_eq_some_iff.mp found
  · simp [pointer?, Table.get?, Table.push, Table.size]

theorem pointers_internPointer (e : Elements) (ptr : Pointer) :
    (e.internPointer ptr).1.pointers = (e.pointers.intern ptr).1 ∧
      (e.internPointer ptr).2 = (e.pointers.intern ptr).2 := by
  generalize interned : e.pointers.intern ptr = r
  unfold internPointer
  split
  · next i found =>
    rw [← interned, Table.intern_of_known (Table.find?_eq_some_iff.mp found)]
    exact ⟨rfl, rfl⟩
  · next missing =>
    unfold Table.intern at interned
    split at interned
    · next j located =>
      rw [missing] at located
      cases located
    · rw [← interned]
      exact ⟨rfl, rfl⟩

theorem le_internPointer (e : Elements) (ptr : Pointer) :
    e.pointers ≤ (e.internPointer ptr).1.pointers := by
  rw [(pointers_internPointer e ptr).1]
  exact Table.le_intern e.pointers ptr

theorem pointer?_internPointer_inv {q : Pointer} {i : PointerId}
    (found : (e.internPointer ptr).1.pointer? i = some q) :
    e.pointer? i = some q ∨ (q = ptr ∧ i = (e.internPointer ptr).2) := by
  rw [pointer?, (pointers_internPointer e ptr).1] at found
  rw [(pointers_internPointer e ptr).2]
  exact Table.get?_intern_inv found

section

variable (e : Elements) (ptr : Pointer)

theorem slots_internPointer (p : PointerId) :
    (e.internPointer ptr).1.slots[p]? = e.slots[p]? ∨
      (e.slots[p]? = none ∧ (e.internPointer ptr).1.slots[p]? = some {}) := by
  unfold internPointer
  split
  · exact Or.inl rfl
  · simp only [Array.getElem?_push]
    split
    · next last =>
      subst last
      exact Or.inr ⟨by simp, rfl⟩
    · exact Or.inl rfl

theorem pts?_internPointer (p : PointerId) : (e.internPointer ptr).1.pts? p = e.pts? p := by
  unfold pts?
  rcases slots_internPointer e ptr p with same | ⟨before, after⟩
  · rw [same]
  · rw [before, after]
    rfl

theorem filters_internPointer (p : PointerId) : (e.internPointer ptr).1.filters p = e.filters p := by
  unfold filters
  rcases slots_internPointer e ptr p with same | ⟨before, after⟩
  · rw [same]
  · rw [before, after]

theorem objs_internPointer : (e.internPointer ptr).1.objs = e.objs := by
  unfold internPointer
  split <;> rfl

theorem sites_internPointer : (e.internPointer ptr).1.sites = e.sites := by
  unfold internPointer
  split <;> rfl

theorem methods_internPointer : (e.internPointer ptr).1.methods = e.methods := by
  unfold internPointer
  split <;> rfl

end

theorem pts?_setPts_self (set : ObjSet) (known : e.pointer? p = some ptr) :
    (e.setPts p set).pts? p = some set := by
  obtain ⟨slot, found⟩ := slot_some_of_known known
  simp [pts?, setPts, modifySlot, Array.getElem?_modify, found]

theorem pts?_setPts_unknown (set : ObjSet) (unknown : e.pointer? p = none) :
    (e.setPts p set).pts? p = e.pts? p := by
  simp [pts?, setPts, modifySlot, Array.getElem?_modify, slot_none_of_unknown unknown]

theorem pts?_setPts_ne (set : ObjSet) (apart : q ≠ p) : (e.setPts p set).pts? q = e.pts? q := by
  simp [pts?, setPts, modifySlot, Array.getElem?_modify, Ne.symm apart]

theorem filters_setPts (e : Elements) (p q : PointerId) (set : ObjSet) :
    (e.setPts p set).filters q = e.filters q := by
  unfold filters setPts modifySlot
  rw [Array.getElem?_modify]
  by_cases same : p = q
  · subst same
    cases e.slots[p]? <;> simp
  · simp [same]

theorem pts?_addFilter (e : Elements) (p q : PointerId) (keep : Obj → Bool) :
    (e.addFilter p keep).pts? q = e.pts? q := by
  unfold pts? addFilter modifySlot
  rw [Array.getElem?_modify]
  by_cases same : p = q
  · subst same
    cases e.slots[p]? <;> simp
  · simp [same]

theorem mem_filters_addFilter (attached : other ∈ e.filters q) : other ∈ (e.addFilter p keep).filters q := by
  unfold filters addFilter modifySlot at *
  rw [Array.getElem?_modify]
  by_cases same : p = q
  · subst same
    cases found : e.slots[p]? with
    | none => simp [found] at attached
    | some slot =>
      rw [found] at attached
      simpa using Or.inl attached
  · simpa [same] using attached

theorem mem_filters_addFilter_self (keep : Obj → Bool) (known : e.pointer? p = some ptr) :
    keep ∈ (e.addFilter p keep).filters p := by
  obtain ⟨slot, found⟩ := slot_some_of_known known
  simp [filters, addFilter, modifySlot, Array.getElem?_modify, found]

theorem mem_filters_addFilter_inv (attached : other ∈ (e.addFilter p keep).filters q) :
    other ∈ e.filters q ∨ q = p ∧ other = keep := by
  unfold filters addFilter modifySlot at *
  rw [Array.getElem?_modify] at attached
  by_cases same : p = q
  · subst same
    cases found : e.slots[p]? with
    | none => simp [found] at attached
    | some slot => simpa [found] using attached
  · exact Or.inl (by simpa [same] using attached)

end Elements

@[simp] theorem FlowLabel.label_data (label : FlowLabel) : label.data.label = label := by
  cases label <;> rfl

namespace FlowEdge

variable {e f : FlowEdge} {label : FlowLabel} {a b : PointerId} {kind : FlowKind}

@[simp] theorem label_mk : (⟨label, a, b⟩ : FlowEdge).label = label := label.label_data

@[simp] theorem label_plain : (plain kind a b).label = .plain kind := rfl

/-- What the solver sees of an edge. -/
structure Joins (e : FlowEdge) (label : FlowLabel) (a b : PointerId) : Prop where
  label : e.label = label
  source : e.source = a
  target : e.target = b

theorem joins_plain : (plain kind a b).Joins (.plain kind) a b := ⟨rfl, rfl, rfl⟩

theorem joins_of_identity (same : e.identity = f.identity) (labels : e.label = f.label) :
    e.Joins f.label f.source f.target :=
  ⟨labels, congrArg EdgeIdentity.source same, congrArg EdgeIdentity.target same⟩

/-- Only edges to be told apart by origin and key can share an identity and differ in their labels. -/
theorem label_of_identity (same : e.identity = f.identity) (own : ∀ info, f.label ≠ .other info) :
    e.label = f.label := by
  have labels : e.label.identity = f.label.identity := congrArg EdgeIdentity.label same
  revert labels own
  cases e.label <;> cases f.label <;> simp [FlowLabel.identity]

end FlowEdge

namespace EdgeStore

variable {g : EdgeStore} {e new : FlowEdge} {id : EdgeId}

theorem edge?_lt (known : g.edge? id = some e) : id < g.size := (Array.getElem?_eq_some_iff.mp known).1

theorem edge?_push_new {h : EdgeStore} (pushed : h.edges = g.edges.push e) : h.edge? g.size = some e := by
  simp [edge?, pushed, size]

theorem edge?_add_old (known : g.edge? id = some e) : (g.add new).1.edge? id = some e := by
  unfold add
  split
  · exact known
  · have bound : id < g.edges.size := edge?_lt known
    rw [edge?, Array.getElem?_push, if_neg (Nat.ne_of_lt bound)]
    exact known

theorem edge?_add_inv (known : (g.add new).1.edge? id = some e) :
    g.edge? id = some e ∨ (id = g.size ∧ e = new) := by
  unfold add at known
  split at known
  · exact Or.inl known
  · rw [edge?, Array.getElem?_push] at known
    split at known
    · next last => exact Or.inr ⟨last, (Option.some.inj known).symm⟩
    · exact Or.inl known

theorem receivers_add (g : EdgeStore) (e : FlowEdge) : (g.add e).1.receivers = g.receivers := by
  unfold add
  split <;> rfl

theorem admits_iff {o : CsObjId} : g.admits id o = true ↔ (id, o) ∈ g.receivers := List.contains_iff_mem

variable (agrees : g.Agrees)

include agrees

theorem Agrees.add_old {old : FlowEdge} (known : g.edge? id = some old) (same : old.identity = e.identity) :
    g.add e = (g, if e.kind = .other then some id else none) := by
  have found := (agrees.1 e.identity id).mpr ⟨old, known, same⟩
  simp [EdgeStore.add, found]

theorem Agrees.add_new (new : ∀ id old, g.edge? id = some old → old.identity ≠ e.identity) :
    (g.add e).2 = some g.size ∧ (g.add e).1.edges = g.edges.push e := by
  cases found : g.keys.get? e.identity with
  | none => simp [EdgeStore.add, found]
  | some id =>
    obtain ⟨old, known, same⟩ := (agrees.1 _ id).mp found
    exact absurd same (new id old known)

theorem Agrees.mem_outEdges {p : PointerId} : id ∈ g.outEdges p ↔ ∃ e, g.edge? id = some e ∧ e.source = p := by
  simpa [outEdges, edge?] using (agrees.2.1 p).2 id

end EdgeStore

namespace FlowGraph

variable {g : FlowGraph} {identity : EdgeIdentity} {e new : FlowEdge}

theorem keys_iff {id : EdgeId} :
    g.keys.get? identity = some id ↔ ∃ e, g.edge? id = some e ∧ e.identity = identity :=
  g.agrees.1 identity id

theorem add_cases (g : FlowGraph) (e : FlowEdge) :
    (∃ id old, g.edge? id = some old ∧ old.identity = e.identity ∧
        g.add e = (g, if e.kind = .other then some id else none)) ∨
      ((g.add e).2 = some g.size ∧ (g.add e).1.edges = g.edges.push e) := by
  by_cases there : ∃ id old, g.edge? id = some old ∧ old.identity = e.identity
  · obtain ⟨id, old, known, same⟩ := there
    exact Or.inl ⟨id, old, known, same, by simp [add, g.agrees.add_old known same]⟩
  · exact Or.inr (g.agrees.add_new fun id old known same => there ⟨id, old, known, same⟩)

theorem receivers_add (g : FlowGraph) (e : FlowEdge) : (g.add e).1.receivers = g.receivers :=
  EdgeStore.receivers_add _ e

theorem allow_cases (g : FlowGraph) (id : EdgeId) (o : CsObjId) :
    (g.admits id o = true ∧ g.allow id o = (g, false)) ∨
      (g.admits id o = false ∧ g.allow id o = ({ g with receivers := (id, o) :: g.receivers }, true)) := by
  cases admitted : g.admits id o with
  | true => exact Or.inl ⟨rfl, by simp [allow, EdgeStore.allow, admitted]⟩
  | false => exact Or.inr ⟨rfl, by simp [allow, EdgeStore.allow, admitted]⟩

/-- The edge over which receivers pass is the one between the two pointers, new or old. -/
theorem thisPassing_edge (g : FlowGraph) (a b : PointerId) :
    ∃ id, (g.add (FlowEdge.plain .thisPassing a b)).2.or
        ((g.add (FlowEdge.plain .thisPassing a b)).1.find? .thisPassing a b) = some id ∧
      ∃ e, (g.add (FlowEdge.plain .thisPassing a b)).1.edge? id = some e ∧
        e.Joins (.plain .thisPassing) a b := by
  rcases add_cases g (FlowEdge.plain .thisPassing a b) with ⟨id, old, known, same, equal⟩ | ⟨answer, pushed⟩
  · -- adding an edge that is there gives no handle, so it is looked up by its ends
    rw [equal]
    exact ⟨id, keys_iff.mpr ⟨old, known, same⟩, old, known, FlowEdge.joins_of_identity same
      (FlowEdge.label_of_identity same nofun)⟩
  · rw [answer]
    exact ⟨g.size, rfl, _, EdgeStore.edge?_push_new pushed, FlowEdge.joins_plain⟩

end FlowGraph

namespace CallGraph

theorem addReachable_cases (g : CallGraph) (m : CsMethodId) :
    (m ∈ g.reachable ∧ g.addReachable m = (g, false)) ∨
      (m ∉ g.reachable ∧
        g.addReachable m = ({ g with reachable := g.reachable ++ [m] }, true)) := by
  unfold addReachable reaches
  by_cases known : m ∈ g.reachable
  · exact Or.inl ⟨known, by simp [known]⟩
  · exact Or.inr ⟨known, by simp [known]⟩

theorem addEdge_cases (g : CallGraph) (e : CallEdge) :
    (e ∈ g.edges ∧ g.addEdge e = (g, false)) ∨
      (e ∉ g.edges ∧ g.addEdge e = ({ g with edges := g.edges ++ [e] }, true)) := by
  unfold addEdge
  by_cases known : e ∈ g.edges
  · exact Or.inl ⟨known, by simp [known]⟩
  · exact Or.inr ⟨known, by simp [known]⟩

theorem addEntry_cases (g : CallGraph) (m : CsMethodId) :
    (m ∈ g.entries ∧ g.addEntry m = g) ∨
      (m ∉ g.entries ∧ g.addEntry m = { g with entries := g.entries ++ [m] }) := by
  unfold addEntry
  by_cases known : m ∈ g.entries
  · exact Or.inl ⟨known, by simp [known]⟩
  · exact Or.inr ⟨known, by simp [known]⟩

end CallGraph

namespace WorkQueue

variable {p q : PointerId} {o : CsObjId} {w : WorkQueue} {set : ObjSet}

/-- Object `o` is on its way to `p`. -/
def Pending (w : WorkQueue) (p : PointerId) (o : CsObjId) : Prop := ∃ set, w.waiting.get? p = some set ∧ o ∈ set

theorem pending_pushPoints : (w.pushPoints p set).Pending q o ↔ w.Pending q o ∨ (q = p ∧ o ∈ set) := by
  unfold Pending pushPoints
  split
  · next none =>
    have absent := ObjSet.isEmpty_iff.mp none o
    simp [absent]
  · split <;> grind [Dict.get?_insert, ObjSet.mem_union_fst]

theorem calls_pushPoints : (w.pushPoints p set).calls = w.calls := by
  unfold pushPoints
  split
  · rfl
  · split <;> rfl

theorem calls_of_isEmpty (empty : w.isEmpty = true) : w.calls = [] := by
  simp_all [isEmpty]

theorem not_pending (empty : w.isEmpty = true) : ¬ w.Pending p o := by
  simp_all [isEmpty, Dict.isEmpty_iff, Pending]

/-- The queue is empty just if nothing waits. -/
theorem Agrees.isEmpty_iff (agrees : w.Agrees) : w.isEmpty = true ↔ w.calls = [] ∧ w.order = [] := by
  simp [isEmpty, Dict.isEmpty_iff, List.eq_nil_iff_forall_not_mem, agrees.2]

end WorkQueue

namespace Worklist

variable {p q : PointerId} {o : CsObjId} {w : Worklist} {set : ObjSet}

@[simp] theorem pending_pushPoints : (w.pushPoints p set).Pending q o ↔ w.Pending q o ∨ (q = p ∧ o ∈ set) :=
  WorkQueue.pending_pushPoints

theorem calls_pushPoints (w : Worklist) (p : PointerId) (set : ObjSet) :
    (w.pushPoints p set).calls = w.calls := WorkQueue.calls_pushPoints

end Worklist

end PointsTo
