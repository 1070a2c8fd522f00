import PointsTo.Proofs.Casting
import PointsTo.Proofs.Scaling
import PointsTo.Proofs.Sources

/-!
Casts that may fail are the casts whose edges withhold something. A cast in a reachable method has an
edge in every context of the method, and its operand is met in no other context.
-/
namespace PointsTo

/-- The order of statements: by method, then by place. -/
def StmtRef.Precedes (a b : StmtRef) : Prop := a.method < b.method ∨ a.method = b.method ∧ a.index < b.index

namespace Program

theorem stmtRefs_sorted (p : Program) (m : MethodId) :
    (p.stmtRefs m).Pairwise fun x y => x.1.Precedes y.1 := by
  have indices : ((p.stmts m).zipIdx.map Prod.snd).Pairwise (· < ·) := by
    rw [List.zipIdx_map_snd]
    exact List.pairwise_lt_range'
  refine List.pairwise_map.mpr ((List.pairwise_map.mp indices).imp fun before => ?_)
  exact Or.inr ⟨rfl, before⟩

theorem collected_sorted {p : Program} {keep : StmtRef × Stmt → Option StmtRef}
    (places : ∀ x site, keep x = some site → site = x.1) {methods : List MethodId}
    (ascends : methods.Pairwise (· < ·)) :
    (methods.flatMap fun m => (p.stmtRefs m).filterMap keep).Pairwise StmtRef.Precedes := by
  have method : ∀ m, ∀ site ∈ (p.stmtRefs m).filterMap keep, site.method = m := by
    intro m site member
    obtain ⟨⟨place, stmt⟩, listed, kept⟩ := List.mem_filterMap.mp member
    rw [places _ _ kept]
    exact (mem_stmtRefs.mp listed).1
  refine List.pairwise_flatMap.mpr ⟨fun m _ => ?_, ascends.imp fun below a listed b listed' => ?_⟩
  · refine List.pairwise_filterMap.mpr ((p.stmtRefs_sorted m).imp fun before a kept b kept' => ?_)
    rw [places _ _ kept, places _ _ kept']
    exact before
  · exact Or.inl (by rw [method _ a listed, method _ b listed']; exact below)

end Program

theorem Result.mayFailCasts_sorted (r : Result) : r.mayFailCasts.Pairwise StmtRef.Precedes := by
  refine Program.collected_sorted (fun x site kept => ?_) (ascending_strict _)
  obtain ⟨place, stmt⟩ := x
  cases stmt with
  | cast lhs rhs ty => exact (Option.some.inj (Option.ite_none_right_eq_some.mp kept).2).symm
  | _ => cases kept

/-- The edge of a cast in a context. -/
structure Facts.CastEdge (f : Facts) (c : ContextId) (lhs rhs : VarId) (ty : Ty) (id : EdgeId)
    (e : FlowEdge) : Prop where
  edge : f.flow.edge? id = some e
  label : e.label = .cast ty
  source : f.elements.pointer? e.source = some (.var c rhs)
  target : f.elements.pointer? e.target = some (.var c lhs)

namespace State

variable {σ : Type} {cx : Setup σ} {R : Regime cx} {s : State σ} {p : Program} {c : ContextId} {site : StmtRef}
  {lhs rhs : VarId} {ty : Ty} {id : EdgeId} {e : FlowEdge} {o : CsObjId} {obj : Obj}

/-- The operand of a cast holds an object in a context, and the edge of the cast there withholds it. -/
def Withholds (s : State σ) (p : Program) (c : ContextId) (lhs rhs : VarId) (ty : Ty) (o : CsObjId) : Prop :=
  ∃ id e set, s.CastEdge c lhs rhs ty id e ∧ s.elements.pts? e.source = some set ∧ o ∈ set ∧
    o ∉ (s.flowOver p id set).2

theorem Settles.castEdge (settles : s.Settles R) (reaches : s.Reaches c site.method)
    (known : cx.program.stmt? site = some (.cast lhs rhs ty)) : ∃ id e, s.CastEdge c lhs rhs ty id e := by
  obtain ⟨frame, named, found⟩ := settles.toLawful.found_of_reaches reaches
  obtain ⟨id, e, edge, label, source, target⟩ := settles.stmtDone found known
  exact ⟨id, e, edge, label, source.var named, target.var named⟩

theorem mem_flowOver_castEdge {set : ObjSet} (cast : s.CastEdge c lhs rhs ty id e)
    (object : s.obj? o = some obj) :
    o ∈ (s.flowOver p id set).2 ↔ o ∈ set ∧ p.isSubtype obj.ty ty = true :=
  mem_flowOver_cast (by rw [cast.edge, ← cast.label]; rfl) object

theorem withholds_of_misfit (cast : s.CastEdge c lhs rhs ty id e) (held : s.At (.var c rhs) o)
    (object : s.obj? o = some obj) (misfit : p.isSubtype obj.ty ty = false) : s.Withholds p c lhs rhs ty o := by
  obtain ⟨q, known, set, filled, member⟩ := held
  obtain rfl := Table.get?_inj known cast.source
  refine ⟨id, e, set, cast, filled, member, fun crosses => ?_⟩
  cases misfit.symm.trans ((mem_flowOver_castEdge cast object).mp crosses).2

theorem Withholds.misfit (withholds : s.Withholds p c lhs rhs ty o) (object : s.obj? o = some obj) :
    s.At (.var c rhs) o ∧ p.isSubtype obj.ty ty = false := by
  obtain ⟨id, e, set, cast, filled, member, stays⟩ := withholds
  refine ⟨⟨e.source, cast.source, set, filled, member⟩, Bool.eq_false_iff.mpr fun fits => stays ?_⟩
  exact (mem_flowOver_castEdge cast object).mpr ⟨member, fits⟩

theorem Sifts.at_castEdge {keep : Obj → Prop} (sifts : s.Sifts R keep) (cast : s.CastEdge c lhs rhs ty id e)
    (held : s.At (.var c rhs) o) (object : s.obj? o = some obj) (kept : keep obj)
    (fits : cx.program.isSubtype obj.ty ty = true) : s.At (.var c lhs) o := by
  obtain ⟨q, known, held⟩ := held
  obtain rfl := Table.get?_inj known cast.source
  obtain ⟨_, i, _, d, described, named⟩ := sifts.toLawful.spelled.held _ _ held
  cases object.symm.trans (Facts.obj?_of_describe? described)
  have crosses : s.crossing? cx.program id e.label o = some (d, i.obj) := by
    rw [cast.label]
    simp [Facts.crossing?, described, fits]
  obtain ⟨o', described', delivered⟩ := sifts.flows id e o cast.edge held _ crosses
  obtain rfl := Facts.describe?_inj described described'
  exact ⟨e.target, cast.target, sifts.held ⟨d, described, named⟩ kept delivered⟩

end State

namespace Registry

variable {p : Program} {o : Options} {files : FileTree} {chain : Chain} {sel : Selector} {fuel : Nat}
  {t : State Chain}

section Runs

variable (made : builtin.chain p o files = .ok chain) (declared : p.Scoped)
  (solved : Solver.solve (Chain.setup p sel) fuel (Heap.ofProgram p o.mergeStrings) chain = some t)
  {site : StmtRef} {lhs rhs : VarId} {ty : Ty} {c : ContextId} {x : CsObjId} {r : Result}
include made declared solved

theorem solved_castEdge (known : p.stmt? site = some (.cast lhs rhs ty)) (held : t.At (.var c rhs) x) :
    ∃ id e, t.CastEdge c lhs rhs ty id e := by
  obtain ⟨q, pointer, _⟩ := held
  obtain ⟨decl, declares, reaches⟩ := (solved_connected made declared solved).vars q c rhs pointer
  obtain ⟨body, code, member⟩ := Program.mentions_of_stmt known (v := rhs) (Or.inl (by simp [Stmt.uses]))
  have own : decl.method = site.method := by
    have owner := declared _ _ code _ member
    rw [declares] at owner
    exact Option.some.inj owner
  exact (solved_stands made declared solved).toSettles.castEdge (own ▸ reaches) known

theorem solved_object {ptr : Pointer} (held : t.At ptr x) :
    ∃ d b obj, t.elements.obj? x = some (d, b) ∧ t.heap.get? b = some obj ∧ t.obj? x = some obj := by
  obtain ⟨q, _, held⟩ := held
  obtain ⟨_, i, _, d, described, _⟩ := (solved_stands made declared solved).toLawful.spelled.held _ _ held
  obtain ⟨b, entry, object⟩ := Facts.describe?_eq_some.mp described
  exact ⟨d, b, i.obj, entry, object, Facts.obj?_of_describe? described⟩

theorem solved_mayFailCasts (program : r.program = p) (facts : r.facts = t.toFacts) {s : State Chain}
    (same : s.toFacts = r.facts) :
    site ∈ r.mayFailCasts ↔ site.method ∈ r.reachableMethods ∧
      ∃ lhs rhs ty, p.stmt? site = some (.cast lhs rhs ty) ∧ ∃ c x, s.Withholds p c lhs rhs ty x := by
  rw [Result.mem_mayFailCasts, program]
  refine and_congr_right fun _ => exists_congr fun lhs => exists_congr fun rhs => exists_congr fun ty =>
    and_congr_right fun known => ⟨?_, ?_⟩
  · rintro ⟨b, member, obj, object, misfit⟩
    obtain ⟨c, q, x, d, pointer, held, entry⟩ := Result.mem_pointsTo_iff.mp member
    have held : r.facts.At (.var c rhs) x := ⟨q, pointer, held⟩
    obtain ⟨id, e, cast⟩ := solved_castEdge made declared solved known (facts ▸ held)
    have described : r.facts.describe? x = some (d, obj) := Facts.describe?_eq_some.mpr ⟨b, entry, object⟩
    rw [← facts] at cast
    rw [← same] at cast held described
    exact ⟨c, x, State.withholds_of_misfit cast held (Facts.obj?_of_describe? described) misfit⟩
  · rintro ⟨c, x, withholds⟩
    have held : t.At (.var c rhs) x := by
      obtain ⟨id, e, set, cast, filled, member, _⟩ := withholds
      rw [← facts, ← same]
      exact ⟨e.source, cast.source, set, filled, member⟩
    obtain ⟨d, b, obj, entry, object, known'⟩ := solved_object made declared solved held
    obtain ⟨q, pointer, there⟩ := held
    rw [← facts] at entry object known' pointer there
    exact ⟨b, Result.mem_pointsTo_iff.mpr ⟨c, q, x, d, pointer, there, entry⟩, obj, object,
      (withholds.misfit (same ▸ known')).2⟩

theorem solved_cast_passes (untainted : o.taintConfig = none) (program : r.program = p)
    (facts : r.facts = t.toFacts) (reachable : site.method ∈ r.reachableMethods)
    (known : p.stmt? site = some (.cast lhs rhs ty)) (unreported : site ∉ r.mayFailCasts)
    (held : t.At (.var c rhs) x) : t.At (.var c lhs) x := by
  have rests := (Solver.solve_some solved).rests (Chain.starts sel declared
    (chain_remembers untainted (Heap.ofProgram p o.mergeStrings) made))
  obtain ⟨id, e, cast⟩ := solved_castEdge made declared solved known held
  obtain ⟨d, b, obj, entry, object, known'⟩ := solved_object made declared solved held
  refine rests.sifts.at_castEdge cast held known' trivial ?_
  by_contra misfit
  refine unreported ((solved_mayFailCasts made declared solved program facts facts.symm).mpr
    ⟨reachable, lhs, rhs, ty, known, c, x, ?_⟩)
  exact State.withholds_of_misfit cast held known' (Bool.eq_false_iff.mpr misfit)

end Runs

end Registry

/-- Casts that may fail are the casts whose edges withhold something. Under every selector, the report is in
order and has no cast twice; it has the casts of reachable methods whose operand holds, in some context, an
object that the edge of the cast there withholds. Without taint, every other cast of a reachable method passes
all that its operand holds on, in every context. And every run returns. -/
theorem Analysis.mayFailCasts_withhold {a : Analysis} {o : Options}
    (registered : a.registry = Registry.builtin) (declared : a.program.Scoped) (sel : Selector) :
    (∀ r, a.solve o sel = .ok r → r.mayFailCasts.Pairwise StmtRef.Precedes ∧
      (∀ s : State Chain, s.toFacts = r.facts → ∀ site, site ∈ r.mayFailCasts ↔
        site.method ∈ r.reachableMethods ∧ ∃ lhs rhs ty, a.program.stmt? site = some (.cast lhs rhs ty) ∧
          ∃ c x, s.Withholds a.program c lhs rhs ty x) ∧
      (o.taintConfig = none → ∀ site lhs rhs ty, site.method ∈ r.reachableMethods →
        a.program.stmt? site = some (.cast lhs rhs ty) → site ∉ r.mayFailCasts →
          ∀ c x, r.facts.At (.var c rhs) x → r.facts.At (.var c lhs) x)) ∧
      ∀ chain, a.registry.chain a.program o a.files = .ok chain → ∃ n, ∀ limit, n ≤ limit →
        ∃ r, { a with stepLimit := limit }.solve o sel = .ok r := by
  refine solve_spec registered sel fun chain t made run => ?_
  refine ⟨Result.mayFailCasts_sorted _, fun s same site => ?_, fun untainted site lhs rhs ty => ?_⟩
  · exact Registry.solved_mayFailCasts made declared run rfl rfl same
  · intro reachable known unreported c x
    exact Registry.solved_cast_passes made declared run untainted rfl rfl reachable known unreported

/-- The cast of the shape is reported, for its edge withholds the shape; the cast of the disk is not, and passes
the disk on. -/
theorem Analysis.gallery_mayFailCasts : ∃ r, galleryAnalysis = .ok r ∧
    (∃ s : State Chain, s.toFacts = r.facts ∧ ∃ c x, s.Withholds gallery c 3 0 (.cls 0) x) ∧
    ∃ c x, r.facts.At (.var c 2) x ∧ r.facts.At (.var c 5) x := by
  obtain ⟨r, solved, _, sets, reported, _⟩ := gallery_run
  simp only [List.range, List.range.loop, List.map_cons, List.cons.injEq] at sets
  obtain ⟨_, withheld, passed⟩ := (mayFailCasts_withhold rfl (by decide) _).1 r solved
  have shape : ⟨0, 0⟩ ∈ r.mayFailCasts := by simp [reported]
  obtain ⟨reachable, lhs, rhs, ty, known, withholds⟩ :=
    (withheld { r.facts with handler := r.chain } rfl _).mp shape
  cases known
  have disk : 3 ∈ r.pointsTo 2 := by simp [sets.2.2.1]
  obtain ⟨c, q, x, d, pointer, held, _⟩ := Result.mem_pointsTo_iff.mp disk
  refine ⟨r, solved, ⟨_, rfl, withholds⟩, c, x, ⟨q, pointer, held⟩, ?_⟩
  exact passed rfl ⟨0, 2⟩ 5 2 (.cls 0) reachable rfl (by simp [reported]) c x ⟨q, pointer, held⟩

end PointsTo
