import PointsTo.Proofs.Dispatch
import PointsTo.Proofs.Subtyping

/-!
The top of the hierarchy, and casts to it. A class at the root of all superclass chains is above every
reference type but an interface that names it neither among its interfaces nor above them; a cast to the
root withholds just the objects of those.
-/
namespace PointsTo

namespace Program

variable {p : Program} {c d top : ClassId} {t e : Ty}

theorem isSubclass_of_extends (chain : p.Extends c d) (inside : d < p.classes.size) :
    p.isSubclass c d = true := by
  obtain ⟨_, climbs⟩ := chain
  obtain ⟨k, less, climbs⟩ := climb?_bounded climbs inside
  exact isSubclass_iff_leadsTo?.mpr (leadsTo?_of_climb? climbs (Nat.lt_succ_of_lt less))

/-- The common superclass: all classes but interfaces are it or extend it. -/
structure Rooted (p : Program) (top : ClassId) : Prop where
  named : p.className top = "java.lang.Object"
  plain : p.isInterface top = false
  above : ∀ c < p.classes.size, p.isInterface c = false → p.Extends c top

def Knows (p : Program) (t : Ty) : Prop := ∀ c, t.innermost = .cls c → c < p.classes.size

def Detached (p : Program) (top : ClassId) (t : Ty) : Prop :=
  ∃ i, t = .cls i ∧ p.isInterface i = true ∧ p.isSubclass i top = false

theorem Rooted.lt (rooted : p.Rooted top) : top < p.classes.size := by
  by_contra out
  have named := rooted.named
  simp [className, Array.getElem?_eq_none (Nat.le_of_not_lt out)] at named

theorem Rooted.isSubtype (rooted : p.Rooted top) (known : p.Knows t) (reference : t.isReference = true) :
    p.isSubtype t (.cls top) = true ↔ ¬ p.Detached top t := by
  cases t with
  | prim q => cases reference
  | void => cases reference
  | null => simp [Program.isSubtype, Ty.isReference, Detached]
  | array e => simp [Program.isSubtype, isArraySupertype, rooted.named, Detached]
  | cls c =>
    cases interfaced : p.isInterface c with
    | true => simp [Program.isSubtype, Detached, interfaced]
    | false =>
      have below := isSubclass_of_extends (rooted.above c (known c rfl) interfaced) rooted.lt
      simp [Program.isSubtype, Detached, interfaced, below]

theorem Rooted.detached (rooted : p.Rooted top) {i : ClassId} (interfaced : p.isInterface i = true)
    (alone : ∀ j, p.Below i j → p.isInterface j = true) : p.Detached top (.cls i) := by
  refine ⟨i, rfl, interfaced, Bool.eq_false_iff.mpr fun found => ?_⟩
  have above := alone top (below_of_leadsTo? (isSubclass_iff_leadsTo?.mp found))
  cases rooted.plain.symm.trans above

end Program

theorem State.mem_flowOver_cast {σ : Type} {s : State σ} {p : Program} {id : EdgeId} {ty : Ty} {set : ObjSet}
    {o : CsObjId} {obj : Obj} (label : (s.flow.edge? id).map FlowEdge.label = some (.cast ty))
    (object : s.obj? o = some obj) :
    o ∈ (s.flowOver p id set).2 ↔ o ∈ set ∧ p.isSubtype obj.ty ty = true := by
  unfold State.flowOver
  rw [label, ObjSet.mem_filter, Facts.objSatisfies, object]

theorem Result.mem_mayFailCasts {r : Result} {site : StmtRef} : site ∈ r.mayFailCasts ↔
    site.method ∈ r.reachableMethods ∧ ∃ lhs v ty, r.program.stmt? site = some (.cast lhs v ty) ∧
      ∃ o ∈ r.pointsTo v, ∃ obj, r.obj? o = some obj ∧ r.program.isSubtype obj.ty ty = false := by
  simp only [mayFailCasts, List.mem_flatMap, List.mem_filterMap]
  constructor
  · rintro ⟨m, reachable, ⟨place, stmt⟩, listed, reported⟩
    obtain ⟨rfl, here⟩ := Program.mem_stmtRefs.mp listed
    cases stmt with
    | cast lhs v ty =>
      obtain ⟨fails, same⟩ := Option.ite_none_right_eq_some.mp reported
      cases same
      obtain ⟨o, member, fits⟩ := List.any_eq_true.mp fails
      obtain ⟨obj, object, fits⟩ := (Option.any_eq_true _ _).mp fits
      exact ⟨reachable, lhs, v, ty, here, o, member, obj, object, by simpa using fits⟩
    | _ => cases reported
  · rintro ⟨reachable, lhs, v, ty, here, o, member, obj, object, fits⟩
    refine ⟨site.method, reachable, (site, _), Program.mem_stmtRefs.mpr ⟨rfl, here⟩, ?_⟩
    refine if_pos (List.any_eq_true.mpr ⟨o, member, ?_⟩)
    simp [object, fits]

namespace Program

variable {p : Program} {top : ClassId}

/-- Every reference type lies below `top` but the interfaces that do not lead there, and casts to `top` and
to arrays of it go by that. -/
structure Tops (p : Program) (top : ClassId) : Prop where
  types : ∀ t, p.Knows t → t.isReference = true → (p.isSubtype t (.cls top) = true ↔ ¬ p.Detached top t)
  arrays : ∀ e, p.Knows e → e.isReference = true →
    (p.isSubtype (.array e) (.array (.cls top)) = true ↔ ¬ p.Detached top e)
  /-- What crosses the edge of a cast to `top`. -/
  edges : ∀ {σ : Type} (s : State σ) (id : EdgeId) (set : ObjSet) (o : CsObjId) (obj : Obj),
    (s.flow.edge? id).map FlowEdge.label = some (.cast (.cls top)) → s.obj? o = some obj →
      p.Knows obj.ty → obj.ty.isReference = true →
        (o ∈ (s.flowOver p id set).2 ↔ o ∈ set ∧ ¬ p.Detached top obj.ty)
  /-- What crosses the edge of a cast to arrays of `top`. -/
  arrayEdges : ∀ {σ : Type} (s : State σ) (id : EdgeId) (set : ObjSet) (o : CsObjId) (obj : Obj) (e : Ty),
    (s.flow.edge? id).map FlowEdge.label = some (.cast (.array (.cls top))) → s.obj? o = some obj →
      obj.ty = .array e → p.Knows e → e.isReference = true →
        (o ∈ (s.flowOver p id set).2 ↔ o ∈ set ∧ ¬ p.Detached top e)
  /-- Which casts to `top` are reported, if their operands are references. -/
  casts : ∀ r : Result, r.program = p → ∀ site lhs v, p.stmt? site = some (.cast lhs v (.cls top)) →
    (∀ o ∈ r.pointsTo v, ∀ obj, r.obj? o = some obj → p.Knows obj.ty ∧ obj.ty.isReference = true) →
      (site ∈ r.mayFailCasts ↔ site.method ∈ r.reachableMethods ∧
        ∃ o ∈ r.pointsTo v, ∃ obj, r.obj? o = some obj ∧ p.Detached top obj.ty)
  interfaces : ∀ i, p.isInterface i = true → (∀ j, p.Below i j → p.isInterface j = true) →
    p.Detached top (.cls i)

theorem object_tops (rooted : p.Rooted top) : p.Tops top where
  types := fun t known reference => rooted.isSubtype known reference
  arrays := fun e known reference => isSubtype_array.trans (rooted.isSubtype known reference)
  edges := by
    intro σ s id set o obj label object known reference
    rw [State.mem_flowOver_cast label object, rooted.isSubtype known reference]
  arrayEdges := by
    intro σ s id set o obj e label object array known reference
    rw [State.mem_flowOver_cast label object, array, isSubtype_array, rooted.isSubtype known reference]
  casts := by
    rintro r rfl site lhs v stmt references
    have fails : ∀ o ∈ r.pointsTo v, ∀ obj, r.obj? o = some obj →
        (r.program.isSubtype obj.ty (.cls top) = false ↔ r.program.Detached top obj.ty) := by
      intro o member obj object
      obtain ⟨known, reference⟩ := references o member obj object
      rw [← Bool.not_eq_true, rooted.isSubtype known reference, not_not]
    rw [Result.mem_mayFailCasts]
    refine and_congr_right fun _ => ⟨?_, ?_⟩
    · rintro ⟨lhs', v', ty, here, o, member, obj, object, fits⟩
      cases stmt.symm.trans here
      exact ⟨o, member, obj, object, (fails o member obj object).mp fits⟩
    · rintro ⟨o, member, obj, object, detached⟩
      exact ⟨lhs, v, _, stmt, o, member, obj, object, (fails o member obj object).mpr detached⟩
  interfaces := fun i interfaced alone => rooted.detached interfaced alone

end Program

/-- A method that casts a shape, an array of shapes and a disk, which is a shape, to objects. -/
def gallery : Program :=
  let p : Program := {}
  let p := p.addClass "java.lang.Object" none
  let p := p.addInterface "Shape" []
  let p := p.addClass "Disk" (some 0)
  let p := p.addInterfaces 2 [1]
  let p := p.addMethod 2 "show" [.cls 1, .array (.cls 1), .cls 2] .void ⟨true, false, false⟩
  let p := p.setBody 0
    { locals := [("a", .cls 0), ("b", .array (.cls 0)), ("c", .cls 0)]
      stmts := [.cast 3 0 (.cls 0), .cast 4 1 (.array (.cls 0)), .cast 5 2 (.cls 0), .ret none]
      handlers := [] }
  p.setMain 0

def galleryAnalysis : Except AnalysisError Result :=
  Analysis.solve { program := gallery, files := { root := "" }, stepLimit := 100 } { implicitEntries := false }
    (.limited .insensitive)

theorem gallery_rooted : gallery.Rooted 0 where
  named := rfl
  plain := rfl
  above := by
    have near : ∀ c < 3, gallery.isInterface c = false →
        gallery.climb? 0 c = some 0 ∨ gallery.climb? 1 c = some 0 := by decide
    intro c inside plain
    rcases near c inside plain with same | next
    · exact ⟨0, same⟩
    · exact ⟨1, next⟩

theorem gallery_run : ∃ r, galleryAnalysis = .ok r ∧ r.program = gallery ∧
    (List.range 6).map r.pointsTo = [[0], [1], [3], [], [], [3]] ∧ r.mayFailCasts = [⟨0, 0⟩, ⟨0, 1⟩] ∧
    (r.obj? 3).map Obj.ty = some (.cls 2) := by
  obtain ⟨r, solved, same⟩ : ∃ r, galleryAnalysis = .ok r ∧
      (List.range 6).map r.pointsTo = [[0], [1], [3], [], [], [3]] ∧ r.mayFailCasts = [⟨0, 0⟩, ⟨0, 1⟩] ∧
      (r.obj? 3).map Obj.ty = some (.cls 2) := Analysis.ok_of_decide (by decide +kernel)
  obtain ⟨_, _, _, _, rfl⟩ := Analysis.solve_eq rfl solved
  exact ⟨_, solved, rfl, same⟩

namespace Program

/-- The cast of the disk gets it and is not reported, and rows of shapes are objects. -/
theorem gallery_tops : gallery.Rooted 0 ∧ gallery.isSubtype (.cls 2) (.cls 0) = true ∧
    gallery.isSubtype (.array (.array (.cls 1))) (.array (.cls 0)) = true ∧
    ∃ r, galleryAnalysis = .ok r ∧ r.pointsTo 2 = [3] ∧ r.pointsTo 5 = [3] ∧ ⟨0, 2⟩ ∉ r.mayFailCasts := by
  obtain ⟨r, solved, program, sets, _, type⟩ := gallery_run
  simp only [List.range, List.range.loop, List.map_cons, List.cons.injEq] at sets
  obtain ⟨_, _, disk, _, _, kept, _⟩ := sets
  have tops := object_tops gallery_rooted
  have known : gallery.Knows (.cls 2) := fun c same => by cases same; decide
  have plain : ¬ gallery.Detached 0 (.cls 2) := by
    rintro ⟨i, same, interfaced, _⟩
    cases same
    cases interfaced
  have rows : gallery.Knows (.array (.cls 1)) := fun c same => by cases same; decide
  refine ⟨gallery_rooted, (tops.types _ known rfl).mpr plain, (tops.arrays _ rows rfl).mpr ?_, r, solved, disk,
    kept, ?_⟩
  · rintro ⟨i, same, _⟩
    cases same
  · have only : ∀ o ∈ r.pointsTo 2, ∀ obj, r.obj? o = some obj → obj.ty = .cls 2 := by
      intro o member obj object
      rw [disk, List.mem_singleton] at member
      rw [← member, object] at type
      exact Option.some.inj type
    rw [tops.casts r program ⟨0, 2⟩ 5 2 rfl fun o member obj object => by
      rw [only o member obj object]
      exact ⟨known, rfl⟩]
    rintro ⟨_, o, member, obj, object, detached⟩
    exact plain (only o member obj object ▸ detached)

/-- The casts of the shape and of the array of shapes get nothing and are reported: an interface does not
lie below the common superclass. -/
theorem gallery_withheld : gallery.Rooted 0 ∧ gallery.superclass? 0 = none ∧ gallery.Knows (.cls 1) ∧
    gallery.isSubtype (.cls 1) (.cls 0) = false ∧
    gallery.isSubtype (.array (.cls 1)) (.array (.cls 0)) = false ∧
    ∃ r, galleryAnalysis = .ok r ∧ r.pointsTo 0 = [0] ∧ r.pointsTo 3 = [] ∧ r.pointsTo 1 = [1] ∧
      r.pointsTo 4 = [] ∧ ⟨0, 0⟩ ∈ r.mayFailCasts ∧ ⟨0, 1⟩ ∈ r.mayFailCasts := by
  obtain ⟨r, solved, _, sets, reported, _⟩ := gallery_run
  simp only [List.range, List.range.loop, List.map_cons, List.cons.injEq] at sets
  obtain ⟨shape, shapes, _, none, nothing, _⟩ := sets
  refine ⟨gallery_rooted, rfl, fun c same => by cases same; decide, by decide, by decide,
    r, solved, shape, none, shapes, nothing, ?_⟩
  simp [reported]

end Program

end PointsTo
