import PointsTo.Proofs.Growth
import PointsTo.Proofs.Inclusion

/-!
What handles stand for. Names never change while a state grows, and no two handles of a kind have
the same name; so facts told by handles and facts told by names are the same facts.
-/
namespace PointsTo

namespace Facts

variable {f : Facts} {c : Context} {frame : Frame} {e : ContextElem} {x : FrameElem}

def elem? (f : Facts) : ContextElem → Option FrameElem
  | .callSite site => some (.callSite site)
  | .object o => (f.heap.get? o).map .object
  | .type c => some (.type c)

/-- The sequence of elements `c`, spelled out. -/
def Spells (f : Facts) (c : Context) (frame : Frame) : Prop := c.map f.elem? = frame.map some

def FrameOf (f : Facts) (c : ContextId) (frame : Frame) : Prop :=
  ∃ elems, f.contexts.entries.get? c = some elems ∧ f.Spells elems frame

def ItemOf (f : Facts) (o : CsObjId) (i : Item) : Prop :=
  ∃ c, f.describe? o = some (c, i.obj) ∧ f.FrameOf c i.frame

def PointerIs (f : Facts) : Pointer → Cell → Prop
  | .var c v, .var frame w => f.FrameOf c frame ∧ v = w
  | .field o g, .field i h => f.ItemOf o i ∧ g = h
  | .element o, .element i => f.ItemOf o i
  | .static g, .static h => g = h
  | _, _ => False

def CellOf (f : Facts) (q : PointerId) (x : Cell) : Prop :=
  ∃ ptr, f.elements.pointer? q = some ptr ∧ f.PointerIs ptr x

def MethodOf (f : Facts) (id : CsMethodId) (frame : Frame) (m : MethodId) : Prop :=
  ∃ c, f.elements.method? id = some (c, m) ∧ f.FrameOf c frame

def SiteOf (f : Facts) (id : CsSiteId) (frame : Frame) (site : StmtRef) : Prop :=
  ∃ c, f.elements.site? id = some (c, site) ∧ f.FrameOf c frame

/-- A call edge in words. -/
def CallOf (f : Facts) (e : CallEdge) (caller : Frame) (site : StmtRef) (callee : Frame)
    (m : MethodId) : Prop :=
  f.SiteOf e.site caller site ∧ f.MethodOf e.callee callee m

def Found (f : Facts) : Fact → Prop
  | .points x i => ∃ q o, f.CellOf q x ∧ f.ItemOf o i ∧ f.elements.Holds q o
  | .reached c m => ∃ id, f.MethodOf id c m ∧ id ∈ f.calls.reachable
  | .called kind c site d m => ∃ e ∈ f.calls.edges, e.kind = kind ∧ f.CallOf e c site d m
  | .admitted x y i => ∃ id e o, f.flow.edge? id = some e ∧ e.label = .plain .thisPassing ∧
      f.CellOf e.source x ∧ f.CellOf e.target y ∧ f.ItemOf o i ∧ f.flow.admits id o = true

/-- Everything found can be told by its name. -/
structure Spelled (f : Facts) : Prop where
  held : ∀ q o, f.elements.Holds q o → ∃ x i, f.CellOf q x ∧ f.ItemOf o i
  reachable : ∀ id ∈ f.calls.reachable, ∃ c m, f.MethodOf id c m
  calls : ∀ e ∈ f.calls.edges, ∃ c site d m, f.CallOf e c site d m

section Inj

variable {f : Facts} {d frame frame' : Frame} {x y : Cell} {c : ContextId} {o : CsObjId} {i : Item} {a : Pointer}
  {q : PointerId} {m : MethodId}

theorem elem?_inj {e d : ContextElem} {x : FrameElem} (first : f.elem? e = some x)
    (second : f.elem? d = some x) : e = d := by
  cases x with
  | callSite site | type c => cases e <;> cases d <;> simp_all [elem?]
  | object obj =>
    cases e <;> cases d <;> simp_all [elem?]
    exact Table.get?_inj first second

theorem Spells.inj {c d : Context} (first : f.Spells c frame) (second : f.Spells d frame) : c = d := by
  induction frame generalizing c d with
  | nil =>
    rw [List.map_eq_nil_iff.mp first, List.map_eq_nil_iff.mp second]
  | cons x rest ih =>
    obtain ⟨e, c', rfl, head, tail⟩ := List.map_eq_cons_iff.mp first
    obtain ⟨e', d', rfl, head', tail'⟩ := List.map_eq_cons_iff.mp second
    rw [elem?_inj head head', ih tail tail']

theorem FrameOf.inj {d : ContextId} (first : f.FrameOf c frame) (second : f.FrameOf d frame) : c = d := by
  obtain ⟨elems, known, spelled⟩ := first
  obtain ⟨elems', known', spelled'⟩ := second
  rw [Spells.inj spelled' spelled] at known'
  exact Table.get?_inj known known'

theorem Spells.unique {c : Context} (first : f.Spells c frame) (second : f.Spells c frame') : frame = frame' :=
  (List.map_inj_right fun _ _ same => Option.some.inj same).mp (first.symm.trans second)

theorem FrameOf.unique (first : f.FrameOf c frame) (second : f.FrameOf c frame') : frame = frame' := by
  obtain ⟨elems, known, spelled⟩ := first
  obtain ⟨elems', known', spelled'⟩ := second
  rw [known] at known'
  cases known'
  exact spelled.unique spelled'

theorem ItemOf.inj {o' : CsObjId} (first : f.ItemOf o i) (second : f.ItemOf o' i) : o = o' := by
  obtain ⟨c, described, frame⟩ := first
  obtain ⟨c', described', frame'⟩ := second
  rw [FrameOf.inj frame' frame] at described'
  exact describe?_inj described described'

theorem ItemOf.unique {i' : Item} (first : f.ItemOf o i) (second : f.ItemOf o i') : i = i' := by
  obtain ⟨c, described, frame⟩ := first
  obtain ⟨c', described', frame'⟩ := second
  rw [described] at described'
  obtain ⟨rfl, same⟩ := Prod.mk.inj (Option.some.inj described')
  obtain ⟨fr, obj⟩ := i
  obtain ⟨fr', obj'⟩ := i'
  cases same
  exact congrArg (Item.mk · obj) (frame.unique frame')

theorem PointerIs.inj {b : Pointer} (first : f.PointerIs a x) (second : f.PointerIs b x) : a = b := by
  cases x <;> cases a <;> first | exact first.elim | skip
  all_goals cases b <;> first | exact second.elim | skip
  · rw [first.2, second.2, first.1.inj second.1]
  · rw [first.2, second.2, first.1.inj second.1]
  · rw [ItemOf.inj first second]
  · rw [show _ = _ from first, show _ = _ from second]

theorem PointerIs.unique (first : f.PointerIs a x) (second : f.PointerIs a y) : x = y := by
  cases a <;> cases x <;> first | exact first.elim | skip
  all_goals cases y <;> first | exact second.elim | skip
  · rw [← first.2, ← second.2, first.1.unique second.1]
  · rw [← first.2, ← second.2, first.1.unique second.1]
  · rw [ItemOf.unique first second]
  · rw [← show _ = _ from first, ← show _ = _ from second]

theorem CellOf.inj {r : PointerId} (first : f.CellOf q x) (second : f.CellOf r x) : q = r := by
  obtain ⟨a, known, named⟩ := first
  obtain ⟨b, known', named'⟩ := second
  rw [named'.inj named] at known'
  exact Table.get?_inj known known'

theorem CellOf.var {v : VarId} (cell : f.CellOf q (.var frame v)) (named : f.FrameOf c frame) :
    f.elements.pointer? q = some (.var c v) := by
  obtain ⟨ptr, known, is⟩ := cell
  rw [known, is.inj (b := .var c v) ⟨named, rfl⟩]

theorem CellOf.unique (first : f.CellOf q x) (second : f.CellOf q y) : x = y := by
  obtain ⟨a, known, named⟩ := first
  obtain ⟨b, known', named'⟩ := second
  rw [known] at known'
  cases known'
  exact named.unique named'

theorem MethodOf.inj {id id' : CsMethodId} {c : Frame} (first : f.MethodOf id c m) (second : f.MethodOf id' c m) :
    id = id' := by
  obtain ⟨d, known, frame⟩ := first
  obtain ⟨d', known', frame'⟩ := second
  rw [frame'.inj frame] at known'
  exact Table.get?_inj known known'

theorem MethodOf.unique {id : CsMethodId} {c : Frame} {n : MethodId} (first : f.MethodOf id c m)
    (second : f.MethodOf id d n) : c = d ∧ m = n := by
  obtain ⟨x, known, frame⟩ := first
  obtain ⟨y, known', frame'⟩ := second
  rw [known] at known'
  obtain ⟨rfl, rfl⟩ := Prod.mk.inj (Option.some.inj known')
  exact ⟨frame.unique frame', rfl⟩

theorem SiteOf.unique {id : CsSiteId} {c : Frame} {s t : StmtRef} (first : f.SiteOf id c s)
    (second : f.SiteOf id d t) : c = d ∧ s = t := by
  obtain ⟨x, known, frame⟩ := first
  obtain ⟨y, known', frame'⟩ := second
  rw [known] at known'
  obtain ⟨rfl, rfl⟩ := Prod.mk.inj (Option.some.inj known')
  exact ⟨frame.unique frame', rfl⟩

end Inj

namespace Extends

variable {f g : Facts} {c frame : Frame} {x : Cell} {m : MethodId} {site : StmtRef}

variable (grown : f.Extends g)

include grown

theorem spells {c : Context} (named : f.Spells c frame) : g.Spells c frame := by
  induction frame generalizing c with
  | nil =>
    rw [List.map_eq_nil_iff.mp named]
    rfl
  | cons x rest ih =>
    obtain ⟨e, c', rfl, head, tail⟩ := List.map_eq_cons_iff.mp named
    refine List.map_eq_cons_iff.mpr ⟨e, c', rfl, ?_, ih tail⟩
    cases e with
    | callSite site => exact head
    | type c => exact head
    | object o =>
      obtain ⟨obj, known, same⟩ := Option.map_eq_some_iff.mp head
      exact Option.map_eq_some_iff.mpr ⟨obj, grown.objects _ _ known, same⟩

theorem frameOf {c : ContextId} (named : f.FrameOf c frame) : g.FrameOf c frame := by
  obtain ⟨elems, known, spelled⟩ := named
  exact ⟨elems, grown.contexts _ _ known, grown.spells spelled⟩

theorem itemOf {o : CsObjId} {i : Item} (named : f.ItemOf o i) : g.ItemOf o i := by
  obtain ⟨c, described, frame⟩ := named
  exact ⟨c, grown.describe? described, grown.frameOf frame⟩

theorem pointerIs {ptr : Pointer} (named : f.PointerIs ptr x) : g.PointerIs ptr x := by
  cases ptr <;> cases x <;> first | exact named.elim | skip
  · exact ⟨grown.frameOf named.1, named.2⟩
  · exact ⟨grown.itemOf named.1, named.2⟩
  · exact grown.itemOf named
  · exact named

theorem cellOf {q : PointerId} (named : f.CellOf q x) : g.CellOf q x := by
  obtain ⟨ptr, known, pointer⟩ := named
  exact ⟨ptr, grown.pointers _ _ known, grown.pointerIs pointer⟩

theorem methodOf {id : CsMethodId} (named : f.MethodOf id c m) : g.MethodOf id c m := by
  obtain ⟨d, known, frame⟩ := named
  exact ⟨d, grown.methods _ _ known, grown.frameOf frame⟩

theorem siteOf {id : CsSiteId} (named : f.SiteOf id c site) : g.SiteOf id c site := by
  obtain ⟨d, known, frame⟩ := named
  exact ⟨d, grown.sites _ _ known, grown.frameOf frame⟩

theorem callOf {e : CallEdge} {d : Frame} (named : f.CallOf e c site d m) : g.CallOf e c site d m :=
  ⟨grown.siteOf named.1, grown.methodOf named.2⟩

end Extends

theorem frameOf_empty (f : Facts) : f.FrameOf ContextTable.emptyId [] :=
  ⟨[], f.contexts.initial, rfl⟩

theorem Spells.recent (limit : Nat) (named : f.Spells c frame) :
    f.Spells (Context.recent limit c) (Frame.recent limit frame) := by
  have length : c.length = frame.length := by
    have same := congrArg List.length named
    simpa using same
  unfold Spells Context.recent Frame.recent at *
  rw [List.map_drop, List.map_drop, named, length]

theorem Spells.append (named : f.Spells c frame) (last : f.elem? e = some x) :
    f.Spells (c ++ [e]) (frame ++ [x]) := by
  unfold Spells at *
  rw [List.map_append, List.map_append, named, List.map_singleton, List.map_singleton, last]

theorem frameOf_intern (f : Facts) (named : f.Spells c frame) :
    Facts.FrameOf { f with contexts := (f.contexts.intern c).1 } (f.contexts.intern c).2 frame :=
  ⟨c, Table.get?_intern_self _ _, named⟩

theorem elems_of_frameOf {c : ContextId} (named : f.FrameOf c frame) : f.Spells (f.contexts.elems c) frame := by
  obtain ⟨elems, known, spelled⟩ := named
  unfold ContextTable.elems
  rw [known]
  exact spelled

theorem frameOf_append (f : Facts) {c : ContextId} (limit : Nat) (named : f.FrameOf c frame)
    (last : f.elem? e = some x) : Facts.FrameOf { f with contexts := (f.contexts.append c e limit).1 }
      (f.contexts.append c e limit).2 (Frame.recent limit (frame ++ [x])) := by
  unfold ContextTable.append
  split
  · next zero =>
    subst zero
    rw [show Frame.recent 0 (frame ++ [x]) = [] by simp [Frame.recent]]
    exact frameOf_empty _
  · exact frameOf_intern f (((elems_of_frameOf named).append last).recent limit)

theorem frameOf_truncate (f : Facts) {c : ContextId} (limit : Nat) (named : f.FrameOf c frame) :
    Facts.FrameOf { f with contexts := (f.contexts.truncate c limit).1 }
      (f.contexts.truncate c limit).2 (Frame.recent limit frame) := by
  have spelled := elems_of_frameOf named
  unfold ContextTable.truncate
  split
  · next short =>
    have length : (f.contexts.elems c).length = frame.length := by
      simpa using congrArg List.length spelled
    rw [show Frame.recent limit frame = frame by
      rw [length] at short
      simp [Frame.recent, Nat.sub_eq_zero_of_le short]]
    exact named
  · exact frameOf_intern f (spelled.recent limit)

def ReceiverIs (f : Facts) : Option Receiver → Option Item → Prop
  | none, none => True
  | some r, some i => f.heap.get? r.obj = some i.obj ∧ f.FrameOf r.context i.frame
  | _, _ => False

theorem typeElem?_eq {p : Program} {o : ObjId} {obj : Obj} (known : f.heap.get? o = some obj) :
    Selector.typeElem? p f.heap o = (typeOf? p obj).map ContextElem.type := by
  unfold Selector.typeElem? typeOf?
  rw [known]
  dsimp only
  cases obj.container?.bind p.ownerOf? <;> rfl

theorem frameOf_calleeContext (spec : ContextSpec) (p : Program) (f : Facts) {caller : ContextId}
    {c : Frame} (site : StmtRef) {receiver : Option Receiver} {item : Option Item}
    (named : f.FrameOf caller c) (on : f.ReceiverIs receiver item) :
    Facts.FrameOf
      { f with contexts := (spec.calleeContext p f.heap f.contexts caller site receiver).1 }
      (spec.calleeContext p f.heap f.contexts caller site receiver).2
      (spec.calleeFrame p c site item) := by
  cases spec with
  | insensitive => exact frameOf_empty f
  | callSite k => exact frameOf_append f k named rfl
  | object k =>
    cases receiver with
    | none =>
      cases item with
      | none => exact frameOf_truncate f k named
      | some i => exact on.elim
    | some r =>
      cases item with
      | none => exact on.elim
      | some i => exact frameOf_append f k on.2 (by simp [elem?, on.1])
  | type k =>
    cases receiver with
    | none =>
      cases item with
      | none => exact frameOf_truncate f k named
      | some i => exact on.elim
    | some r =>
      cases item with
      | none => exact on.elim
      | some i =>
        have elem := typeElem?_eq (p := p) on.1
        unfold ContextSpec.calleeContext ContextSpec.calleeFrame
        dsimp only
        rw [elem]
        cases typeOf? p i.obj with
        | none => exact frameOf_truncate f k on.2
        | some c => exact frameOf_append f k on.2 rfl

end Facts

namespace State

variable {σ : Type u} {c : Frame}

theorem frameOf_selectCallee (s : State σ) (cx : Setup σ) {caller : ContextId} (site : StmtRef)
    {receiver : Option Receiver} {item : Option Item} (callee : MethodId) (named : s.FrameOf caller c)
    (on : s.ReceiverIs receiver item) :
    (s.selectCallee cx caller site receiver callee).1.FrameOf
      (s.selectCallee cx caller site receiver callee).2
      (cx.selector.calleeFrame cx.program c site item callee) := by
  unfold selectCallee Selector.calleeContext Selector.calleeFrame
  cases cx.selector.specOf? callee with
  | none => exact Facts.frameOf_empty _
  | some spec => exact Facts.frameOf_calleeContext spec cx.program s.toFacts site named on

theorem frameOf_selectHeap (s : State σ) (cx : Setup σ) {context : ContextId} (m : MethodId)
    (named : s.FrameOf context c) :
    (s.selectHeap cx context m).1.FrameOf (s.selectHeap cx context m).2
      (cx.selector.heapFrame c m) := by
  unfold selectHeap Selector.heapContext Selector.heapFrame
  cases cx.selector.specOf? m with
  | none => exact Facts.frameOf_empty _
  | some spec => exact Facts.frameOf_truncate s.toFacts (spec.limit - 1) named

end State

end PointsTo
