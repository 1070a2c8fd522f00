import PointsTo.Proofs.Withholding

/-!
The variables that are listed are those that were met, whether anything came to them or not, and a
variable is met only in contexts in which its method is reached.
-/
namespace PointsTo

/-- What was found brings a variable up: a statement puts an object there, or objects move from or to it. -/
inductive Facts.Touches (f : Facts) (p : Program) (c : Frame) (v : VarId) : Prop
  | new {site : StmtRef} {ty : Ty} (stmt : p.stmt? site = some (.new v ty))
      (reached : f.Found (.reached c site.method))
  | literal {site : StmtRef} {value : Literal} (stmt : p.stmt? site = some (.literal v value))
      (constant : value.isConstant = true) (reached : f.Found (.reached c site.method))
  | source {label : FlowLabel} {y : Cell} (flow : FlowRule p f.Found label (.var c v) y)
  | target {label : FlowLabel} {x : Cell} (flow : FlowRule p f.Found label x (.var c v))

theorem State.Settles.touches {σ : Type u} {cx : Setup σ} {R : Regime cx} {s : State σ} (settles : s.Settles R)
    (pure : ∀ x, ¬ R.law.injected x) {c : Frame} {v : VarId} (touches : s.Touches cx.program c v) :
    ∃ q, s.CellOf q (.var c v) := by
  cases touches with
  | new stmt reached =>
    obtain ⟨q, _, cell, _⟩ := settles.stmtDone reached stmt
    exact ⟨q, cell⟩
  | literal stmt constant reached =>
    obtain ⟨q, _, cell, _⟩ := settles.stmtDone reached stmt constant
    exact ⟨q, cell⟩
  | source flow =>
    obtain ⟨_, e, _, _, source, _⟩ := settles.linked pure (fun _ found => found) flow
    exact ⟨e.source, source⟩
  | target flow =>
    obtain ⟨_, e, _, _, _, target⟩ := settles.linked pure (fun _ found => found) flow
    exact ⟨e.target, target⟩

theorem Table.mem_items {α : Type} [DecidableEq α] {t : Table α} {a : α} :
    a ∈ t.items.toList ↔ ∃ i, t.get? i = some a := by
  simp only [List.mem_iff_getElem?, Array.getElem?_toList, get?]

namespace Result

variable {r : Result} {c : ContextId} {v : VarId}

theorem csVars_eq (r : Result) : r.csVars = r.facts.elements.pointers.items.toList.filterMap Pointer.var? := by
  rw [csVars, Elements.allPointers, List.filterMap_map]
  conv => rhs; rw [← List.zipIdx_map_fst 0 r.facts.elements.pointers.items.toList, List.filterMap_map]
  rfl

theorem mem_csVars : (c, v) ∈ r.csVars ↔ ∃ q, r.facts.elements.pointer? q = some (.var c v) := by
  rw [csVars_eq, List.mem_filterMap]
  constructor
  · rintro ⟨ptr, listed, same⟩
    cases ptr with
    | var _ _ =>
      cases same
      exact Table.mem_items.mp listed
    | _ => cases same
  · intro known
    exact ⟨_, Table.mem_items.mpr known, rfl⟩

theorem mem_vars : v ∈ r.vars ↔ ∃ c, (c, v) ∈ r.csVars := by
  simp [vars, mem_ascending]

theorem csVars_nodup (r : Result) : r.csVars.Nodup := by
  rw [csVars_eq]
  refine r.facts.elements.pointers.distinct.filterMap fun a b x first second => ?_
  cases a <;> cases b <;> cases first <;> cases second
  rfl

/-- What is listed of a run. -/
structure Lists (r : Result) : Prop where
  ascending : r.vars.Pairwise (· < ·)
  once : r.csVars.Nodup
  /-- A variable is listed if it was met in some context. -/
  met : ∀ v, v ∈ r.vars ↔ ∃ c, (c, v) ∈ r.csVars
  pointing : ∀ v, r.pointsTo v ≠ [] ↔ ∃ c set, r.facts.varPts? c v = some set ∧ ∃ x, x ∈ set
  /-- A variable that has a points-to set in a context was met there, -/
  filled : ∀ c v set, r.facts.varPts? c v = some set → (c, v) ∈ r.csVars
  /-- and so was one that is brought up there, whatever it holds; -/
  touched : ∀ c frame v, r.facts.FrameOf c frame → r.facts.Touches r.program frame v → (c, v) ∈ r.csVars
  /-- but it was met nowhere but in its method. -/
  reached : ∀ c v, (c, v) ∈ r.csVars → ∃ decl frame, r.program.vars[v]? = some decl ∧
    r.facts.FrameOf c frame ∧ r.facts.Found (.reached frame decl.method)

end Result

/-- Variables are listed where they are met: under every selector, the variables of a result are those that the
run met in some context, each once and in ascending order. And every run returns. -/
theorem Analysis.vars_met {a : Analysis} {o : Options} (registered : a.registry = Registry.builtin)
    (declared : a.program.Scoped) (sel : Selector) :
    (∀ r, a.solve o sel = .ok r → r.Lists) ∧
      ∀ chain, a.registry.chain a.program o a.files = .ok chain → ∃ n, ∀ limit, n ≤ limit →
        ∃ r, { a with stepLimit := limit }.solve o sel = .ok r := by
  refine solve_spec registered sel fun chain t made run => ?_
  have stands := Registry.solved_stands made declared run
  refine ⟨ascending_strict _, Result.csVars_nodup _, fun v => Result.mem_vars, fun v => ⟨fun some => ?_, ?_⟩,
    ?_, ?_, ?_⟩
  · obtain ⟨b, member⟩ := List.exists_mem_of_ne_nil _ some
    obtain ⟨c, q, x, _, known, ⟨set, filled, held⟩, _⟩ := Result.mem_pointsTo_iff.mp member
    exact ⟨c, set, Option.bind_eq_some_iff.mpr ⟨q, Table.find?_eq_some_iff.mpr known, filled⟩, x, held⟩
  · rintro ⟨c, set, found, x, held⟩
    obtain ⟨q, known, filled⟩ := Option.bind_eq_some_iff.mp found
    have there : t.At (.var c v) x := ⟨q, Table.find?_eq_some_iff.mp known, set, filled, held⟩
    obtain ⟨d, b, _, entry, _⟩ := Registry.solved_object made declared run there
    obtain ⟨q, known, held⟩ := there
    exact List.ne_nil_of_mem (Result.mem_pointsTo_iff.mpr ⟨c, q, x, d, known, held, entry⟩)
  · intro c v set found
    obtain ⟨q, known, _⟩ := Option.bind_eq_some_iff.mp found
    exact Result.mem_csVars.mpr ⟨q, Table.find?_eq_some_iff.mp known⟩
  · intro c frame v named touches
    obtain ⟨q, cell⟩ := stands.toSettles.touches (fun _ => not_false) touches
    exact Result.mem_csVars.mpr ⟨q, cell.var named⟩
  · intro c v met
    obtain ⟨q, known⟩ := Result.mem_csVars.mp met
    obtain ⟨decl, declares, reaches⟩ := (Registry.solved_connected made declared run).vars q c v known
    obtain ⟨frame, named, found⟩ := stands.toSettles.toLawful.found_of_reaches reaches
    exact ⟨decl, frame, declares, named, found⟩

/-- The shape is met where it is held, so its method is reached there, and the variable that it is cast to is
met there as well. -/
theorem Analysis.gallery_vars_met : ∃ r, galleryAnalysis = .ok r ∧
    ∃ c, (c, 0) ∈ r.csVars ∧ (c, 3) ∈ r.csVars := by
  obtain ⟨r, solved, program, sets, _⟩ := gallery_run
  simp only [List.range, List.range.loop, List.map_cons, List.cons.injEq] at sets
  have lists := (vars_met rfl (by decide) _).1 r solved
  obtain ⟨c, set, filled, _⟩ := (lists.pointing 0).mp (by simp [sets.1])
  have shape := lists.filled c 0 set filled
  obtain ⟨decl, frame, known, named, reached⟩ := lists.reached c 0 shape
  rw [program] at known
  cases known
  have stmt : r.program.stmt? ⟨0, 0⟩ = some (.cast 3 0 (.cls 0)) := by
    rw [program]
    rfl
  exact ⟨r, solved, c, shape, lists.touched c frame 3 named (.target (.cast stmt reached))⟩

/-- The variable that the shape is cast to is listed, though it has no points-to set. -/
theorem Analysis.gallery_vars_unfilled : ∃ r, galleryAnalysis = .ok r ∧
    3 ∈ r.vars ∧ r.pointsTo 3 = [] ∧ (0, 3) ∈ r.csVars ∧ (r.facts.varPts? 0 3).isNone := by
  obtain ⟨r, solved, empty, listed, unfilled⟩ : ∃ r, galleryAnalysis = .ok r ∧
      r.pointsTo 3 = [] ∧ (0, 3) ∈ r.csVars ∧ (r.facts.varPts? 0 3).isNone := ok_of_decide (by decide +kernel)
  exact ⟨r, solved, Result.mem_vars.mpr ⟨0, listed⟩, empty, listed, unfilled⟩

end PointsTo
