import Mathlib.Data.List.Induction
import PointsTo.Proofs.Scaling

/-!
Handles keep their meaning. Objects, contexts, things under contexts and flow edges are known by the place
where they were put first, and whatever is done later, none of them moves, changes or is put twice.
-/
namespace PointsTo

/-- The tables that give out handles. -/
inductive Store
  | object | context | csObject | csSite | csMethod | pointer

def Store.Key : Store → Type
  | object => Obj
  | context => Context
  | csObject => ContextId × ObjId
  | csSite => ContextId × StmtRef
  | csMethod => ContextId × MethodId
  | pointer => Pointer

inductive HandleStep
  | intern (k : Store) (x : k.Key)
  | append (c : ContextId) (elem : ContextElem) (limit : Nat)
  | truncate (c : ContextId) (limit : Nat)
  | setPts (q : PointerId) (set : ObjSet)
  | addFilter (q : PointerId) (keep : Obj → Bool)

namespace Facts

def resolve (f : Facts) : (k : Store) → Nat → Option k.Key
  | .object => f.heap.get?
  | .context => f.contexts.entries.get?
  | .csObject => f.elements.obj?
  | .csSite => f.elements.site?
  | .csMethod => f.elements.method?
  | .pointer => f.elements.pointer?

/-- What the index of a table says. -/
def lookup? (f : Facts) : (k : Store) → k.Key → Option Nat
  | .object => f.heap.objects.find?
  | .context => f.contexts.entries.find?
  | .csObject => f.elements.objs.find?
  | .csSite => f.elements.sites.find?
  | .csMethod => f.elements.methods.find?
  | .pointer => f.elements.pointers.find?

def intern (f : Facts) : (k : Store) → k.Key → Facts × Nat
  | .object, o => ({ f with heap := (f.heap.intern o).1 }, (f.heap.intern o).2)
  | .context, c => ({ f with contexts := (f.contexts.intern c).1 }, (f.contexts.intern c).2)
  | .csObject, x => ({ f with elements := (f.elements.internObj x.1 x.2).1 }, (f.elements.internObj x.1 x.2).2)
  | .csSite, x => ({ f with elements := (f.elements.internSite x.1 x.2).1 }, (f.elements.internSite x.1 x.2).2)
  | .csMethod, x =>
    ({ f with elements := (f.elements.internMethod x.1 x.2).1 }, (f.elements.internMethod x.1 x.2).2)
  | .pointer, q => ({ f with elements := (f.elements.internPointer q).1 }, (f.elements.internPointer q).2)

def handle (f : Facts) : HandleStep → Facts
  | .intern k x => (f.intern k x).1
  | .append c elem limit => { f with contexts := (f.contexts.append c elem limit).1 }
  | .truncate c limit => { f with contexts := (f.contexts.truncate c limit).1 }
  | .setPts q set => { f with elements := f.elements.setPts q set }
  | .addFilter q keep => { f with elements := f.elements.addFilter q keep }

variable {f g : Facts} {k : Store} {x y : k.Key} {i j : Nat}

theorem resolve_intern (f : Facts) (k : Store) (x : k.Key) :
    (f.intern k x).1.resolve k (f.intern k x).2 = some x := by
  cases k with
  | pointer => exact Elements.pointer?_internPointer_self _ _
  | _ => exact Table.get?_intern_self _ _

theorem lookup?_iff : f.lookup? k x = some i ↔ f.resolve k i = some x := by
  cases k <;> exact Table.find?_eq_some_iff

theorem resolve_inj (first : f.resolve k i = some x) (second : f.resolve k j = some x) : i = j := by
  cases k <;> exact Table.get?_inj first second

/-- No step takes a handle back or gives it another meaning. -/
theorem extends_handle (f : Facts) (step : HandleStep) : f.Extends (f.handle step) := by
  have same := Extends.refl f
  cases step with
  | intern k x =>
    cases k with
    | object => exact { same with objects := Table.le_intern _ _ }
    | context => exact { same with contexts := Table.le_intern _ _ }
    | csObject => exact { same with objs := Table.le_intern _ _ }
    | csSite => exact { same with sites := Table.le_intern _ _ }
    | csMethod => exact { same with methods := Table.le_intern _ _ }
    | pointer => exact (State.internPointer_quiet { f with handler := () } x).grown
  | append c elem limit => exact { same with contexts := (ContextTable.yields_append _ _ _ _).above }
  | truncate c limit => exact { same with contexts := (ContextTable.yields_truncate _ _ _).above }
  | setPts q set => exact { same with }
  | addFilter q keep => exact { same with }

theorem Extends.resolve (grown : f.Extends g) (known : f.resolve k i = some x) : g.resolve k i = some x := by
  cases k with
  | object => exact grown.objects i x known
  | context => exact grown.contexts i x known
  | csObject => exact grown.objs i x known
  | csSite => exact grown.sites i x known
  | csMethod => exact grown.methods i x known
  | pointer => exact grown.pointers i x known

theorem extends_foldl (f : Facts) (steps : List HandleStep) : f.Extends (steps.foldl handle f) :=
  List.foldlRecOn steps handle (Extends.refl f) fun g grown step _ => grown.trans (extends_handle g step)

end Facts

namespace ContextTable

variable {t : ContextTable} {c : ContextId} {elems : Context} (known : t.entries.get? c = some elems)

include known

theorem get?_append (elem : ContextElem) (limit : Nat) : (t.append c elem limit).1.entries.get?
    (t.append c elem limit).2 = some (Context.recent limit (elems ++ [elem])) := by
  unfold append
  split
  · next zero => simpa [zero, Context.recent, emptyId] using t.initial
  · simp only [ContextTable.elems, known]
    exact Table.get?_intern_self _ _

theorem get?_truncate (limit : Nat) : (t.truncate c limit).1.entries.get? (t.truncate c limit).2 =
    some (Context.recent limit elems) := by
  simp only [truncate, ContextTable.elems, known]
  split
  · next short => simpa [Context.recent, Nat.sub_eq_zero_of_le short] using known
  · exact Table.get?_intern_self _ _

end ContextTable

/-- What the heap is asked for. -/
inductive HeapKey
  | allocation (site : StmtRef) (ty : Ty)
  | constant (value : Literal)
  | mock (descriptor : Descriptor) (key : MockKey) (container : Option MethodId) (ty : Ty)

namespace HeapRules

def obj (r : HeapRules) : HeapKey → Obj
  | .allocation site ty => r.allocated site ty
  | .constant value => r.constant value
  | .mock descriptor key container ty => ⟨.mock descriptor key container, ty⟩

/-- What is the same object: all allocations of a merged class, which its merged object stands for, and
otherwise only what is asked for in the same words. -/
def Same (r : HeapRules) : HeapKey → HeapKey → Prop
  | .allocation site ty, .allocation site' ty' => ty = ty' ∧ (site = site' ∨ r.merges ty = true)
  | .allocation _ ty, x | x, .allocation _ ty => r.merges ty = true ∧ x = .mock .mergedString (.type ty) none ty
  | x, y => x = y

theorem obj_eq_iff (r : HeapRules) (x y : HeapKey) : r.obj x = r.obj y ↔ r.Same x y := by
  cases x <;> cases y <;> grind [obj, Same, allocated, constant, Obj.mock]

theorem merges_iff {p : Program} {merging : Bool} {ty : Ty} :
    (ofProgram p merging).merges ty = true ↔ merging = true ∧ ∃ name ∈ ["java.lang.String",
      "java.lang.StringBuilder", "java.lang.StringBuffer"], ∃ c, p.classByName? name = some c ∧ ty = .cls c := by
  cases ty <;> simp [merges, ofProgram]

end HeapRules

/-- Handles are canonical and stable. Whatever is done after something was interned, its handle resolves to
it, and it alone gets this handle again; the index of a table finds just what stands in the table. Objects are
told apart by what they are asked for as, merged strings apart; the empty context comes first; every pointer has
a slot, and those of a variable are listed in order. -/
theorem Facts.handles_canonical (f : Facts) (k : Store) (x : k.Key) (steps : List HandleStep) :
    let g := steps.foldl handle (f.intern k x).1
    g.resolve k (f.intern k x).2 = some x ∧ (∀ y, (g.intern k y).2 = (f.intern k x).2 ↔ y = x) ∧
    (∀ k y i, g.lookup? k y = some i ↔ g.resolve k i = some y) ∧
    (g.heap.rules = f.heap.rules ∧ ∀ a b, f.heap.rules.obj a = f.heap.rules.obj b ↔ f.heap.rules.Same a b) ∧
    (∀ p merging ty, (HeapRules.ofProgram p merging).merges ty = true ↔ merging = true ∧
      ∃ name ∈ ["java.lang.String", "java.lang.StringBuilder", "java.lang.StringBuffer"], ∃ c,
        p.classByName? name = some c ∧ ty = .cls c) ∧
    (g.resolve .context 0 = some [] ∧ ∀ c (elems : Context), g.resolve .context c = some elems → ∀ elem limit,
      (g.handle (.append c elem limit)).resolve .context (g.contexts.append c elem limit).2 =
          some (Context.recent limit (elems ++ [elem])) ∧
        (g.handle (.truncate c limit)).resolve .context (g.contexts.truncate c limit).2 =
          some (Context.recent limit elems)) ∧
    g.elements.slots.size = g.elements.pointers.size ∧
    ∀ v, (g.elements.varsOf v).Pairwise (· < ·) ∧
      ∀ q, q ∈ g.elements.varsOf v ↔ ∃ c, g.elements.pointer? q = some (.var c v) := by
  intro g
  have grown : (f.intern k x).1.Extends g := extends_foldl _ steps
  have known : g.resolve k (f.intern k x).2 = some x := grown.resolve (resolve_intern f k x)
  refine ⟨known, fun y => ⟨fun same => ?_, ?_⟩, fun _ _ _ => lookup?_iff, ⟨?_, f.heap.rules.obj_eq_iff⟩,
    fun _ _ _ => HeapRules.merges_iff,
    ⟨g.contexts.initial, fun c elems spelled elem limit =>
      ⟨ContextTable.get?_append spelled elem limit, ContextTable.get?_truncate spelled limit⟩⟩,
    g.elements.slots_size,
    fun v => ⟨(g.elements.vars_listed v).1, fun q => Elements.mem_varsOf⟩⟩
  · -- the handle still stands for `x` after `y` was interned, and it stands for `y` as well
    have later := (extends_handle g (.intern k y)).resolve known
    rw [← same] at later
    exact Option.some.inj ((resolve_intern g k y).symm.trans later)
  · rintro rfl
    exact resolve_inj (resolve_intern g k y) ((extends_handle g (.intern k y)).resolve known)
  · exact grown.rules.trans (extends_handle f (.intern k x)).rules

inductive FlowStep
  | add (e : FlowEdge)
  | allow (id : EdgeId) (o : CsObjId)

theorem EdgeData.identity_label (d : EdgeData) : d.label.identity =
    match d.kind with
    | .cast => d.castTy.elim (.plain .cast) .cast
    | .other => d.info.elim (.plain .other) fun i => .other i.origin i.key
    | kind => .plain kind := by
  obtain ⟨kind, ty, info⟩ := d
  cases kind <;> cases ty <;> cases info <;> rfl

/-- Kind and ends always count, the type on casts, origin and key on edges of kind other. -/
theorem FlowEdge.identity_eq_iff (e f : FlowEdge) : e.identity = f.identity ↔
    e.source = f.source ∧ e.target = f.target ∧ e.kind = f.kind ∧
      (e.kind = .cast → e.data.castTy = f.data.castTy) ∧
      (e.kind = .other →
        e.data.info.map (fun i => (i.origin, i.key)) = f.data.info.map fun i => (i.origin, i.key)) := by
  unfold identity label kind
  rw [EdgeIdentity.mk.injEq, EdgeData.identity_label, EdgeData.identity_label]
  cases e.data.castTy <;> cases f.data.castTy <;> cases e.data.info <;> cases f.data.info <;> grind

namespace EdgeStore

def act (g : EdgeStore) : FlowStep → EdgeStore
  | .add e => (g.add e).1
  | .allow id o => (g.allow id o).1

def run (steps : List FlowStep) : EdgeStore := steps.foldl act {}

variable {g : EdgeStore} {e f : FlowEdge} {i j : EdgeId}

theorem run_snoc (steps : List FlowStep) (step : FlowStep) : run (steps ++ [step]) = (run steps).act step :=
  List.foldl_append

theorem edges_allow (g : EdgeStore) (id : EdgeId) (o : CsObjId) : (g.allow id o).1.edges = g.edges := by
  unfold allow
  split <;> rfl

theorem Agrees.act (agrees : g.Agrees) : (step : FlowStep) → (g.act step).Agrees
  | .add e => agrees.add e
  | .allow id o => agrees.allow id o

theorem agrees_run (steps : List FlowStep) : (run steps).Agrees :=
  List.foldlRecOn steps EdgeStore.act agrees_empty fun _ agrees step _ => agrees.act step

theorem edge?_act {step : FlowStep} (known : g.edge? i = some e) : (g.act step).edge? i = some e := by
  cases step with
  | add new => exact edge?_add_old known
  | allow id o =>
    rw [edge?, EdgeStore.act, edges_allow]
    exact known

/-- The identities in the store are those of the edges that were added. -/
theorem stored_iff (steps : List FlowStep) (k : EdgeIdentity) :
    (∃ i e, (run steps).edge? i = some e ∧ e.identity = k) ↔ ∃ e, .add e ∈ steps ∧ e.identity = k := by
  induction steps using List.reverseRecOn with
  | nil => simp [run, edge?]
  | append_singleton steps step ih =>
    have agrees := agrees_run steps
    simp only [run_snoc, List.mem_append, List.mem_singleton, or_and_right, exists_or, ← ih]
    generalize run steps = g at agrees
    constructor
    · rintro ⟨i, e, known, same⟩
      cases step with
      | add new =>
        rcases edge?_add_inv known with old | ⟨_, rfl⟩
        · exact Or.inl ⟨i, e, old, same⟩
        · exact Or.inr ⟨e, rfl, same⟩
      | allow id o =>
        rw [edge?, EdgeStore.act, edges_allow] at known
        exact Or.inl ⟨i, e, known, same⟩
    · rintro (⟨i, e, known, same⟩ | ⟨e, rfl, same⟩)
      · exact ⟨i, e, edge?_act known, same⟩
      · -- an edge that is there already stands for the one that was added
        by_cases there : ∃ i f, g.edge? i = some f ∧ f.identity = e.identity
        · obtain ⟨i, f, known, equal⟩ := there
          exact ⟨i, f, edge?_add_old known, equal.trans same⟩
        · obtain ⟨_, pushed⟩ := agrees.add_new fun i f known equal => there ⟨i, f, known, equal⟩
          exact ⟨g.size, e, edge?_push_new pushed, same⟩

theorem admits_run (steps : List FlowStep) (id : EdgeId) (o : CsObjId) :
    (run steps).admits id o = true ↔ .allow id o ∈ steps := by
  induction steps using List.reverseRecOn with
  | nil => simp [run, admits]
  | append_singleton steps step ih =>
    rw [run_snoc, List.mem_append, ← ih]
    generalize run steps = g
    cases step with
    | add e => simp [EdgeStore.act, admits, receivers_add]
    | allow id' o' =>
      simp only [EdgeStore.act, allow, List.mem_singleton, FlowStep.allow.injEq]
      split <;> grind [admits_iff]

/-- The flow graph stores each edge once, and all its indexes tell of the same edges. After any history there is
one edge for each identity that was added, and adding answers a new handle for a new identity alone; edges stay as
they are and are found by their identity, the edges of a pointer are listed in order, plain edges are found by
their kind, and those who were admitted over an edge are admitted. -/
theorem edges_stored_once (steps : List FlowStep) :
    let g := run steps
    (∀ e f : FlowEdge, e.identity = f.identity ↔ e.source = f.source ∧ e.target = f.target ∧ e.kind = f.kind ∧
      (e.kind = .cast → e.data.castTy = f.data.castTy) ∧ (e.kind = .other →
        e.data.info.map (fun i => (i.origin, i.key)) = f.data.info.map fun i => (i.origin, i.key))) ∧
    (∀ k, (∃ i e, g.edge? i = some e ∧ e.identity = k) ↔ ∃ e, .add e ∈ steps ∧ e.identity = k) ∧
    (∀ i j e f, g.edge? i = some e → g.edge? j = some f → e.identity = f.identity → i = j) ∧
    (∀ e, (∀ i f, g.edge? i = some f → f.identity ≠ e.identity) →
      (g.add e).2 = some g.size ∧ (g.add e).1.edge? g.size = some e) ∧
    (∀ e i f, g.edge? i = some f → f.identity = e.identity →
      g.add e = (g, if e.kind = .other then some i else none)) ∧
    (∀ (later : List FlowStep) i e, g.edge? i = some e → (later.foldl act g).edge? i = some e) ∧
    (∀ k i, g.keys.get? k = some i ↔ ∃ e, g.edge? i = some e ∧ e.identity = k) ∧
    (∀ p, (g.outEdges p).Pairwise (· < ·) ∧ (g.inEdges p).Pairwise (· < ·) ∧
      ∀ i, (i ∈ g.outEdges p ↔ ∃ e, g.edge? i = some e ∧ e.source = p) ∧
        (i ∈ g.inEdges p ↔ ∃ e, g.edge? i = some e ∧ e.target = p)) ∧
    (∀ kind a b i, g.find? kind a b = some i ↔
      ∃ e, g.edge? i = some e ∧ e.source = a ∧ e.target = b ∧ e.kind = kind ∧
      (e.kind = .cast → e.data.castTy = none) ∧ (e.kind = .other → e.data.info = none)) ∧
    ∀ i o, g.admits i o = true ↔ .allow i o ∈ steps := by
  intro g
  have agrees : g.Agrees := agrees_run steps
  refine ⟨FlowEdge.identity_eq_iff, stored_iff steps, fun i j e f first second same => ?_, fun e new => ?_,
    fun e i f known same => agrees.add_old known same, fun later i e known => ?_, agrees.1,
    fun p => ⟨(agrees.2.1 p).1, (agrees.2.2 p).1, fun i => ⟨agrees.mem_outEdges, ?_⟩⟩, fun kind a b i => ?_,
    admits_run steps⟩
  · have found := (agrees.1 f.identity i).mpr ⟨e, first, same⟩
    rw [(agrees.1 f.identity j).mpr ⟨f, second, rfl⟩] at found
    exact (Option.some.inj found).symm
  · obtain ⟨answer, pushed⟩ := agrees.add_new new
    exact ⟨answer, edge?_push_new pushed⟩
  · exact List.foldlRecOn (motive := fun g => g.edge? i = some e) later act known fun _ kept _ _ => edge?_act kept
  · simpa [inEdges, edge?] using (agrees.2.2 p).2 i
  · -- a plain edge has the identity of one with nothing attached
    refine (agrees.1 (FlowEdge.plain kind a b).identity i).trans ?_
    refine exists_congr fun e => and_congr_right fun _ => ?_
    rw [e.identity_eq_iff]
    simp [FlowEdge.plain, FlowEdge.kind, FlowLabel.data]

end EdgeStore

end PointsTo
