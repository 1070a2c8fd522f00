import PointsTo.Proofs.Naming
import PointsTo.Result

/-!
What the answers of a result mean. Answers are given by handles and without contexts; each of them says that
some fact was found, under some contexts, about the things that the handles name.
-/
namespace PointsTo

variable {α : Type}

theorem Table.mem_zipIdx_items [DecidableEq α] {t : Table α} {a : α} {i : Nat} :
    (a, i) ∈ t.items.toList.zipIdx ↔ t.get? i = some a := by
  rw [List.mk_mem_zipIdx_iff_getElem?, Array.getElem?_toList]
  exact Iff.rfl

theorem mem_sortedBy {key : α → List Nat} {items : List α} {a : α} :
    a ∈ sortedBy key items ↔ a ∈ items := List.mem_mergeSort

theorem mem_ascending {items : List Nat} {n : Nat} : n ∈ ascending items ↔ n ∈ items := by
  rw [ascending, List.mem_eraseDups, List.mem_mergeSort]

theorem Elements.mem_varsOf {e : Elements} {v : VarId} {q : PointerId} :
    q ∈ e.varsOf v ↔ ∃ c, e.pointer? q = some (.var c v) := by
  rw [varsOf, (e.vars_listed v).2]
  constructor
  · rintro ⟨ptr, known, own⟩
    cases ptr with
    | var c w =>
      cases own
      exact ⟨c, known⟩
    | _ => cases own
  · rintro ⟨c, known⟩
    exact ⟨_, known, rfl⟩

/-- What is left of a cell without contexts. -/
inductive Place
  | var (v : VarId)
  | field (base : Obj) (f : FieldId)
  | element (array : Obj)
  | static (f : FieldId)
  deriving DecidableEq

def Cell.place : Cell → Place
  | var _ v => .var v
  | field base f => .field base.obj f
  | element array => .element array.obj
  | static f => .static f

/-- Some cell of the place points to the object under some context. -/
def Facts.Tells (f : Facts) (place : Place) (obj : Obj) : Prop :=
  ∃ x i, x.place = place ∧ i.obj = obj ∧ f.Found (.points x i)

namespace Result

variable {r : Result} {o : ObjId} {place : Place}

def place? (r : Result) : Pointer → Option Place
  | .var _ v => some (.var v)
  | .field base f => (r.facts.describe? base).map fun d => .field d.2 f
  | .element array => (r.facts.describe? array).map fun d => .element d.2
  | .static f => some (.static f)

theorem place?_of_pointerIs {ptr : Pointer} {x : Cell} (named : r.facts.PointerIs ptr x) :
    r.place? ptr = some x.place := by
  cases ptr <;> cases x <;> first | exact named.elim | skip
  · rw [place?, Cell.place, named.2]
  · obtain ⟨⟨c, described, _⟩, rfl⟩ := named
    rw [place?, described]
    rfl
  · obtain ⟨c, described, _⟩ := named
    rw [place?, described]
    rfl
  · rw [place?, Cell.place, show _ = _ from named]

/-- The set of `ptr` holds `o` under some context. -/
def Keeps (r : Result) (ptr : Pointer) (o : ObjId) : Prop :=
  ∃ q cs c, r.facts.elements.pointer? q = some ptr ∧ r.facts.elements.Holds q cs ∧
    r.facts.elements.obj? cs = some (c, o)

theorem keeps_iff_tells (spelled : r.facts.Spelled) :
    (∃ ptr, r.place? ptr = some place ∧ r.Keeps ptr o) ↔
      ∃ obj, r.obj? o = some obj ∧ r.facts.Tells place obj := by
  constructor
  · rintro ⟨ptr, placed, q, cs, c, known, held, entry⟩
    obtain ⟨x, i, ⟨ptr', known', named⟩, item⟩ := spelled.held q cs held
    obtain rfl := Option.some.inj (known.symm.trans known')
    obtain rfl := Option.some.inj (placed.symm.trans (place?_of_pointerIs named))
    obtain ⟨d, described, frame⟩ := item
    obtain ⟨id, entry', object⟩ := Facts.describe?_eq_some.mp described
    obtain ⟨rfl, rfl⟩ := Prod.mk.inj (Option.some.inj (entry.symm.trans entry'))
    exact ⟨i.obj, object, x, i, rfl, rfl, q, cs, ⟨ptr, known, named⟩, ⟨c, described, frame⟩, held⟩
  · rintro ⟨_, object, x, i, rfl, rfl, q, cs, ⟨ptr, known, named⟩, ⟨c, described, frame⟩, held⟩
    obtain ⟨id, entry, object'⟩ := Facts.describe?_eq_some.mp described
    obtain rfl := Table.get?_inj object object'
    exact ⟨ptr, place?_of_pointerIs named, q, cs, c, known, held, entry⟩

theorem obj?_of_tells {obj : Obj} (told : r.facts.Tells place obj) : ∃ o, r.obj? o = some obj := by
  obtain ⟨x, i, _, rfl, q, cs, _, ⟨c, described, _⟩, _⟩ := told
  obtain ⟨id, _, object⟩ := Facts.describe?_eq_some.mp described
  exact ⟨id, object⟩

section Answers

variable {ptr : Pointer} {b : ObjId} {v : VarId} {obj : Obj} {pointer : CsObjId → Pointer} {place : Obj → Place}

theorem mem_objsOf {sets : List ObjSet} : o ∈ r.objsOf sets ↔
    ∃ set ∈ sets, ∃ cs ∈ set, ∃ c, r.facts.elements.obj? cs = some (c, o) := by
  change o ∈ ObjSet.ofList _ ↔ _
  simp only [ObjSet.mem_ofList, List.mem_flatMap, List.mem_filterMap, Option.map_eq_some_iff, Prod.exists,
    exists_eq_right]
  exact Iff.rfl

theorem mem_pointerSet :
    (∃ set, r.pointerSet? ptr = some set ∧ ∃ cs ∈ set, ∃ c, r.facts.elements.obj? cs = some (c, o)) ↔
      r.Keeps ptr o := by
  constructor
  · rintro ⟨set, found, cs, held, c, entry⟩
    obtain ⟨q, located, filled⟩ := Option.bind_eq_some_iff.mp found
    exact ⟨q, cs, c, Table.find?_eq_some_iff.mp located, ⟨set, filled, held⟩, entry⟩
  · rintro ⟨q, cs, c, known, ⟨set, filled, held⟩, entry⟩
    exact ⟨set, Option.bind_eq_some_iff.mpr ⟨q, Table.find?_eq_some_iff.mpr known, filled⟩, cs, held, c, entry⟩

theorem mem_underContexts {base : CsObjId} :
    base ∈ r.underContexts b ↔ ∃ c, r.facts.elements.obj? base = some (c, b) := by
  simp only [underContexts, List.mem_filterMap, Prod.exists]
  constructor
  · rintro ⟨c, b', i, listed, kept⟩
    obtain ⟨rfl, same⟩ := Option.ite_none_right_eq_some.mp kept
    cases same
    exact ⟨c, Table.mem_zipIdx_items.mp listed⟩
  · rintro ⟨c, known⟩
    exact ⟨c, b, base, Table.mem_zipIdx_items.mpr known, if_pos rfl⟩

theorem mem_pointsTo_iff : o ∈ r.pointsTo v ↔ ∃ c, r.Keeps (.var c v) o := by
  simp only [pointsTo, mem_objsOf, List.mem_filterMap, Elements.mem_varsOf]
  constructor
  · rintro ⟨set, ⟨q, ⟨c, known⟩, filled⟩, cs, held, d, entry⟩
    exact ⟨c, q, cs, d, known, ⟨set, filled, held⟩, entry⟩
  · rintro ⟨c, q, cs, d, known, ⟨set, filled, held⟩, entry⟩
    exact ⟨set, ⟨q, ⟨c, known⟩, filled⟩, cs, held, d, entry⟩

theorem mem_pointsTo (spelled : r.facts.Spelled) :
    o ∈ r.pointsTo v ↔ ∃ obj, r.obj? o = some obj ∧ r.facts.Tells (.var v) obj := by
  rw [← keeps_iff_tells spelled, mem_pointsTo_iff]
  constructor
  · rintro ⟨c, keeps⟩
    exact ⟨.var c v, rfl, keeps⟩
  · rintro ⟨ptr, placed, keeps⟩
    cases ptr with
    | var c w =>
      cases placed
      exact ⟨c, keeps⟩
    | field _ _ | element _ | static _ => simp [place?] at placed

theorem mem_staticFieldPointsTo (spelled : r.facts.Spelled) {f : FieldId} :
    o ∈ r.staticFieldPointsTo f ↔ ∃ obj, r.obj? o = some obj ∧ r.facts.Tells (.static f) obj := by
  rw [← keeps_iff_tells spelled]
  simp only [staticFieldPointsTo, mem_objsOf, Option.mem_toList, mem_pointerSet]
  constructor
  · intro keeps
    exact ⟨.static f, rfl, keeps⟩
  · rintro ⟨ptr, placed, keeps⟩
    cases ptr with
    | static g =>
      cases placed
      exact keeps
    | var _ _ | field _ _ | element _ => simp [place?] at placed

theorem obj?_of_describe? {cs : CsObjId} {c : ContextId} (described : r.facts.describe? cs = some (c, obj)) :
    (∃ d, r.facts.elements.obj? cs = some (d, o)) ↔ r.obj? o = some obj := by
  obtain ⟨id, entry, object⟩ := Facts.describe?_eq_some.mp described
  constructor
  · rintro ⟨d, entry'⟩
    obtain ⟨rfl, rfl⟩ := Prod.mk.inj (Option.some.inj (entry.symm.trans entry'))
    exact object
  · intro object'
    obtain rfl := Table.get?_inj object' object
    exact ⟨c, entry⟩

theorem Keeps.place? (spelled : r.facts.Spelled) (keeps : r.Keeps ptr o) :
    ∃ place, r.place? ptr = some place := by
  obtain ⟨q, cs, c, known, held, entry⟩ := keeps
  obtain ⟨x, i, ⟨ptr', known', named⟩, item⟩ := spelled.held q cs held
  obtain rfl := Option.some.inj (known.symm.trans known')
  exact ⟨x.place, place?_of_pointerIs named⟩

/-- Every object has a pointer of this kind, and the pointers of its place are those of the object under
its contexts. -/
structure Inner (r : Result) (pointer : CsObjId → Pointer) (place : Obj → Place) : Prop where
  placed : ∀ cs, r.place? (pointer cs) = (r.facts.describe? cs).map fun d => place d.2
  only : ∀ ptr obj, r.place? ptr = some (place obj) →
    ∃ cs c, ptr = pointer cs ∧ r.facts.describe? cs = some (c, obj)

theorem inner_field (r : Result) (f : FieldId) : r.Inner (.field · f) (.field · f) where
  placed _ := rfl
  only ptr obj placed := by
    cases ptr with
    | field cs g =>
      obtain ⟨⟨c, obj'⟩, described, same⟩ := Option.map_eq_some_iff.mp placed
      obtain ⟨rfl, rfl⟩ := Place.field.inj same
      exact ⟨cs, c, rfl, described⟩
    | var _ _ | element _ | static _ => simp [Result.place?] at placed

theorem inner_element (r : Result) : r.Inner .element .element where
  placed _ := rfl
  only ptr obj placed := by
    cases ptr with
    | element cs =>
      obtain ⟨⟨c, obj'⟩, described, same⟩ := Option.map_eq_some_iff.mp placed
      obtain rfl := Place.element.inj same
      exact ⟨cs, c, rfl, described⟩
    | var _ _ | field _ _ | static _ => simp [Result.place?] at placed

theorem Inner.mem_objsOf (inner : r.Inner pointer place) (spelled : r.facts.Spelled) :
    o ∈ r.objsOf ((r.underContexts b).filterMap fun cs => r.pointerSet? (pointer cs)) ↔
      ∃ base obj, r.obj? b = some base ∧ r.obj? o = some obj ∧ r.facts.Tells (place base) obj := by
  simp only [Result.mem_objsOf, List.mem_filterMap, mem_underContexts]
  constructor
  · rintro ⟨set, ⟨cs, entry, found⟩, rest⟩
    have keeps : r.Keeps (pointer cs) o := mem_pointerSet.mp ⟨set, found, rest⟩
    obtain ⟨_, known⟩ := keeps.place? spelled
    obtain ⟨d, described, rfl⟩ := Option.map_eq_some_iff.mp ((inner.placed cs).symm.trans known)
    obtain ⟨obj, object, told⟩ := (keeps_iff_tells spelled).mp ⟨pointer cs, known, keeps⟩
    exact ⟨d.2, obj, (obj?_of_describe? described).mp entry, object, told⟩
  · rintro ⟨base, obj, owner, object, told⟩
    obtain ⟨ptr, known, keeps⟩ := (keeps_iff_tells spelled).mpr ⟨obj, object, told⟩
    obtain ⟨cs, c, rfl, described⟩ := inner.only ptr base known
    obtain ⟨set, found, rest⟩ := mem_pointerSet.mpr keeps
    exact ⟨set, ⟨cs, (obj?_of_describe? described).mpr owner, found⟩, rest⟩

theorem Inner.obj? (inner : r.Inner pointer place) {base : Obj} (told : r.facts.Tells (place base) obj) :
    ∃ b, r.obj? b = some base := by
  obtain ⟨x, i, placed, _, q, cs, ⟨ptr, _, named⟩, _⟩ := told
  obtain ⟨cs, c, _, described⟩ := inner.only ptr base (placed ▸ place?_of_pointerIs named)
  obtain ⟨b, _, object⟩ := Facts.describe?_eq_some.mp described
  exact ⟨b, object⟩

theorem mem_methodGraph_edges (spelled : r.facts.Spelled) {e : MethodEdge} :
    e ∈ r.methodGraph.edges ↔ ∃ c d, r.facts.Found (.called e.kind c e.site d e.callee) := by
  simp only [methodGraph, MethodGraph.ofFacts, mem_sortedBy, List.mem_eraseDups, List.mem_filterMap]
  constructor
  · rintro ⟨edge, listed, same⟩
    obtain ⟨c, site, d, m, ⟨c', known, frame⟩, ⟨d', known', frame'⟩⟩ := spelled.calls edge listed
    simp only [known, known', Option.map_some, Option.some.injEq] at same
    subst same
    exact ⟨c, d, edge, listed, rfl, ⟨c', known, frame⟩, d', known', frame'⟩
  · rintro ⟨c, d, edge, listed, kind, ⟨c', known, frame⟩, ⟨d', known', frame'⟩⟩
    refine ⟨edge, listed, ?_⟩
    simp only [known, known', Option.map_some, kind]

theorem mem_reachableMethods (spelled : r.facts.Spelled) {m : MethodId} :
    m ∈ r.reachableMethods ↔ (∃ c, r.facts.Found (.reached c m)) ∨
      ∃ e ∈ r.methodGraph.edges, m = e.site.method ∨ m = e.callee := by
  have graph : ∀ e : MethodEdge, e ∈ r.methodGraph.edges ↔ _ := fun e =>
    mem_sortedBy.trans List.mem_eraseDups
  simp only [graph, reachableMethods, mem_ascending]
  simp only [methodGraph, MethodGraph.ofFacts, List.mem_eraseDups, List.mem_append, List.mem_flatMap,
    List.mem_cons, List.not_mem_nil, or_false]
  refine or_congr_left ?_
  rw [List.mem_filterMap]
  constructor
  · rintro ⟨id, listed, same⟩
    obtain ⟨c, n, d, known, frame⟩ := spelled.reachable id listed
    rw [known] at same
    cases same
    exact ⟨c, id, ⟨d, known, frame⟩, listed⟩
  · rintro ⟨c, id, ⟨d, known, frame⟩, listed⟩
    exact ⟨id, listed, by rw [known]; rfl⟩

end Answers

/-- A handle of `r` and one of `s` stand for the same object: one of the same kind and type. -/
def Same (r s : Result) (o o' : ObjId) : Prop := ∃ obj, r.obj? o = some obj ∧ s.obj? o' = some obj

/-- Every answer of `r` is an answer of `s`. -/
structure Within (r s : Result) : Prop where
  methods : ∀ m ∈ r.reachableMethods, m ∈ s.reachableMethods
  calls : ∀ e ∈ r.methodGraph.edges, e ∈ s.methodGraph.edges
  vars : ∀ v, ∀ o ∈ r.pointsTo v, ∃ o' ∈ s.pointsTo v, r.Same s o o'
  statics : ∀ f, ∀ o ∈ r.staticFieldPointsTo f, ∃ o' ∈ s.staticFieldPointsTo f, r.Same s o o'
  fields : ∀ b f, ∀ o ∈ r.fieldPointsTo b f, ∃ b', r.Same s b b' ∧
    ∃ o' ∈ s.fieldPointsTo b' f, r.Same s o o'
  elements : ∀ b, ∀ o ∈ r.elementsPointTo b, ∃ b', r.Same s b b' ∧
    ∃ o' ∈ s.elementsPointTo b', r.Same s o o'

section Within

variable {s : Result} (spelled : r.facts.Spelled) (spelled' : s.facts.Spelled)
  (told : ∀ place obj, r.facts.Tells place obj → s.facts.Tells place obj)

include told

theorem same_of_tells {place : Place} {obj : Obj} (object : r.obj? o = some obj)
    (found : r.facts.Tells place obj) :
    ∃ o', s.obj? o' = some obj ∧ s.facts.Tells place obj ∧ r.Same s o o' := by
  obtain ⟨o', object'⟩ := obj?_of_tells (told place obj found)
  exact ⟨o', object', told place obj found, obj, object, object'⟩

include spelled spelled'

theorem Inner.within {pointer : CsObjId → Pointer} {place : Obj → Place} (inner : r.Inner pointer place)
    (inner' : s.Inner pointer place) {b : ObjId}
    (listed : o ∈ r.objsOf ((r.underContexts b).filterMap fun cs => r.pointerSet? (pointer cs))) :
    ∃ b', r.Same s b b' ∧ ∃ o' ∈ s.objsOf ((s.underContexts b').filterMap fun cs =>
      s.pointerSet? (pointer cs)), r.Same s o o' := by
  obtain ⟨base, obj, owner, object, found⟩ := (inner.mem_objsOf spelled).mp listed
  obtain ⟨o', object', found', same⟩ := same_of_tells told object found
  obtain ⟨b', owner'⟩ := inner'.obj? found'
  exact ⟨b', ⟨base, owner, owner'⟩, o', (inner'.mem_objsOf spelled').mpr ⟨base, obj, owner', object', found'⟩,
    same⟩

theorem within_of_tells
    (reached : ∀ m, (∃ c, r.facts.Found (.reached c m)) → ∃ c, s.facts.Found (.reached c m))
    (called : ∀ e : MethodEdge, (∃ c d, r.facts.Found (.called e.kind c e.site d e.callee)) →
      ∃ c d, s.facts.Found (.called e.kind c e.site d e.callee)) : r.Within s := by
  have calls : ∀ e ∈ r.methodGraph.edges, e ∈ s.methodGraph.edges := fun e listed =>
    (mem_methodGraph_edges spelled').mpr (called e ((mem_methodGraph_edges spelled).mp listed))
  refine ⟨fun m listed => ?_, calls, fun v o listed => ?_, fun f o listed => ?_,
    fun b f o listed => Inner.within spelled spelled' told (r.inner_field f) (s.inner_field f) listed,
    fun b o listed => Inner.within spelled spelled' told r.inner_element s.inner_element listed⟩
  · rw [mem_reachableMethods spelled']
    rcases (mem_reachableMethods spelled).mp listed with found | ⟨e, edge, atEnd⟩
    · exact .inl (reached m found)
    · exact .inr ⟨e, calls e edge, atEnd⟩
  · obtain ⟨obj, object, found⟩ := (mem_pointsTo spelled).mp listed
    obtain ⟨o', object', found', same⟩ := same_of_tells told object found
    exact ⟨o', (mem_pointsTo spelled').mpr ⟨obj, object', found'⟩, same⟩
  · obtain ⟨obj, object, found⟩ := (mem_staticFieldPointsTo spelled).mp listed
    obtain ⟨o', object', found', same⟩ := same_of_tells told object found
    exact ⟨o', (mem_staticFieldPointsTo spelled').mpr ⟨obj, object', found'⟩, same⟩

end Within

end Result

end PointsTo
