import PointsTo.Proofs.Sources

/-!
Provenance of taint. All taint in points-to sets comes from a point that the taint handler knows, and
edges that pass taint on keep the point; so the source of every flow is a configured one that was met.
-/
namespace PointsTo

/-- A point at which the configuration lets taint in, and which the analysis has met. -/
def TaintConfig.Genuine (config : TaintConfig) (p : Program) (f : Facts) : SourcePoint → Prop
  | .call site index => ∃ e ∈ f.calls.edges, e.kind ≠ .other ∧ ∃ c d m ty,
      f.elements.site? e.site = some (c, site) ∧ f.elements.method? e.callee = some (d, m) ∧
      .call m index ty ∈ config.sources
  | .param m index => (∃ c, f.Reaches c m) ∧ ∃ ty, .param m index ty ∈ config.sources
  | .field site g => (∃ c, f.Reaches c site.method) ∧ (∃ v, p.Loads site v g) ∧
      ∃ ty, .field g ty ∈ config.sources

/-- Taint has points, points have objects of their own, and taint that is passed on keeps its point. -/
structure TaintConfig.Provenance (config : TaintConfig) (f : Facts) (marks : Marks) : Prop where
  sourced : ∀ q o, f.elements.Holds q o → ∃ obj, f.obj? o = some obj ∧
    (obj.isTaint = true → ∃ a, marks.point? obj = some a ∧ marks.Names a obj.ty obj)
  apart : ∀ a b ty ty' obj, marks.Names a ty obj → marks.Names b ty' obj → a = b
  passed : ∀ id e info t, f.flow.edge? id = some e → e.label = .other info → info.transfer = some t →
    ∃ x ∈ config.transfers, ∀ c obj, (obj.isTaint = false → t c obj = none) ∧
      ∀ a ty, marks.Names a ty obj → t c obj = some (ContextTable.emptyId, { obj with ty := x.ty }) ∧
        marks.Names a x.ty { obj with ty := x.ty }

namespace Taint

variable {σ : Type u} {p : Program} {first : Taint} {rules : HeapRules} {record past rest : List (Moment σ)}
  {x : Moment σ} {f : Facts} {a : SourcePoint} {config : TaintConfig}

theorem Outcome.genuine_of_opens (outcome : Outcome p rules first record f) (fresh : first.sources.loads = [])
    (cut : record = past ++ x :: rest) {c : ContextId} {openings : List Opening}
    (opens : (first.after p past).Opens p x.facts x.event c openings) {v : VarId} {kind : IndexKind} {ty : Ty}
    (listed : (a, v, kind, ty) ∈ openings) (given : first.sources.sources = config.sources) :
    config.Genuine p f a := by
  have below := outcome.below cut
  have same := (first.after_frame p past).2.1.trans given
  generalize event : x.event = e at opens
  cases opens with
  | call place target invokes real =>
    obtain ⟨index, source, _, rfl, _⟩ := TaintSources.mem_callPoints.mp listed
    have edge := (outcome.accounts.calls.2 _).mp (mem_told.mpr
      ⟨past, x, rest, cut, Event.call?_eq_some.mpr event⟩)
    exact ⟨_, edge, real, _, _, _, ty, below.sites _ _ place, below.methods _ _ target, same ▸ source⟩
  | entry known =>
    have reachable := (outcome.accounts.csMethods.2 _).mp (mem_told.mpr
      ⟨past, x, rest, cut, Event.csMethod?_eq_some.mpr event⟩)
    have known' := below.methods _ _ known
    rcases TaintSources.mem_methodPoints.mp listed with
      ⟨_, index, _, source, _, rfl, _⟩ | ⟨site, g, recorded, rfl, typed, rfl, _⟩
    · exact ⟨⟨c, _, reachable, known'⟩, ty, same ▸ source⟩
    · obtain ⟨_, loads, _⟩ := (first.mem_loads_after p fresh past).mp recorded
      exact ⟨⟨c, _, reachable, known'⟩, ⟨v, loads⟩, ty, same ▸ TaintSources.fieldTy?_mem typed⟩

theorem Outcome.genuine (outcome : Outcome p rules first record f) (fresh : first.sources.loads = [])
    (none : first.marks.points = Table.empty) (given : first.sources.sources = config.sources) {i : Nat}
    (known : (first.after p record).marks.points.get? i = some a) : config.Genuine p f a := by
  have all : ∀ i a, (first.after p record).marks.points.get? i = some a → config.Genuine p f a := by
    refine replay_induct (fun _ (s : Taint) => ∀ i a, s.marks.points.get? i = some a → config.Genuine p f a) ?_ ?_
      record [] (List.append_nil _).symm
    · intro i a known
      simp [none, Table.get?, Table.empty] at known
    · intro past x rest cut ih i a known
      rcases (react_acts p x.facts (first.after p past) x.event).points i a known with
        before | ⟨c, openings, opens, ⟨_, v, kind, ty⟩, listed, rfl⟩
      · exact ih i a before
      · exact outcome.genuine_of_opens fresh cut opens listed given
  exact all i a known

end Taint

theorem Marks.point?_known {t : Marks} {o : Obj} {a : SourcePoint} (point : t.point? o = some a) :
    ∃ i, t.points.get? i = some a := by
  unfold point? at point
  split at point
  · split at point
    · exact ⟨_, point⟩
    · cases point
  · cases point

theorem TaintConfig.mem_flows {config : TaintConfig} {p : Program} {f : Facts} {marks : Marks}
    {flow : TaintFlow} (reported : flow ∈ config.flows p f marks) :
    ∃ i, marks.points.get? i = some flow.source := by
  simp only [flows, mem_sortedBy, List.mem_eraseDups, List.mem_flatMap] at reported
  obtain ⟨sink, _, site, _, found⟩ := reported
  unfold flowsAt at found
  split at found
  · cases found
  · obtain ⟨o, _, found⟩ := List.mem_filterMap.mp found
    obtain ⟨a, point, rfl⟩ := Option.map_eq_some_iff.mp found
    obtain ⟨obj, _, point⟩ := Option.bind_eq_some_iff.mp point
    exact Marks.point?_known point

theorem Result.flows?_eq {r : Result} {s : Taint} (handler : ∀ s', .taint s' ∈ r.chain ↔ s' = s) :
    r.flows? = some (s.flows r.program r.facts) := by
  cases found : r.flows? with
  | none =>
    rw [flows?, List.findSome?_eq_none_iff] at found
    cases found _ ((handler s).mpr rfl)
  | some flows =>
    obtain ⟨h, listed, same⟩ := List.exists_of_findSome?_eq_some found
    cases h with
    | taint s' =>
      cases same
      rw [(handler s').mp listed]
    | _ => cases same

namespace Solver

variable {σ : Type u} {cx : Setup σ} {first s t : State σ}

theorem Visits.resume (visited : Visits cx first s) {fuel : Nat}
    (finishes : Solver.run cx fuel first = some t) : ∃ fuel, Solver.run cx fuel s = some t := by
  induction visited with
  | here => exact ⟨fuel, finishes⟩
  | next _ stepped ih =>
    obtain ⟨fuel, rest⟩ := ih
    cases fuel with
    | zero => cases rest
    | succ fuel =>
      rw [Solver.run, stepped] at rest
      exact ⟨fuel, rest⟩

end Solver

namespace Registry

variable {p : Program} {o : Options} {files : FileTree} {chain : Chain} {sel : Selector} {path : String}
  {config : TaintConfig}

section Runs

variable (made : builtin.chain p o files = .ok chain) (given : o.taintConfig = some path)
  (loaded : TaintConfig.load p files path = .ok config) {s : Taint}
include made given loaded

theorem chain_passes : chain.Marked config := by
  obtain ⟨_, marked⟩ := chain_marked made
  intro h member
  rcases marked h member with clean | ⟨s, rfl, _⟩
  · exact Or.inl clean
  · rw [(chain_taints made given loaded).2 s member]
    exact Or.inr ⟨_, rfl, rfl, List.forall_mem_nil _, List.forall_mem_nil _⟩

variable (declared : p.Scoped) {fuel : Nat} {t : State Chain} (solved : Solver.solve (Chain.setup p sel) fuel
  (Heap.ofProgram p o.mergeStrings) chain = some t)
include declared solved

theorem solved_provenance (listed : .taint s ∈ t.handler) : config.Provenance t.toFacts s.marks := by
  have vouched := solved_vouched (chain_passes made given loaded) solved
  obtain ⟨record, outcome, handler⟩ := solved_outcome made declared given loaded solved
  refine ⟨fun q o held => ?_, fun a b ty ty' obj => Marks.Names.unique, fun id e info t edge label transfer => ?_⟩
  · obtain ⟨_, i, _, ⟨c, described, _⟩, _⟩ := (solved_stands made declared solved).sane.held q o held
    refine ⟨i.obj, Facts.obj?_of_describe? described, fun taint => ?_⟩
    obtain ⟨id, _, object⟩ := Facts.describe?_eq_some.mp described
    obtain ⟨s', listed', a, ty, names⟩ := vouched.objects id i.obj object taint
    rw [(handler s').mp listed', ← (handler s).mp listed] at names
    obtain rfl := names.ty_eq
    exact ⟨a, names.point?, names⟩
  · have retaints := vouched.edges id e edge
    rw [label] at retaints
    obtain ⟨x, configured, rfl⟩ := retaints t transfer
    refine ⟨x, configured, fun c obj => ⟨taintTransfer_clean, fun a ty names => ?_⟩⟩
    obtain ⟨retaints, names'⟩ := names.retaint x.ty
    exact ⟨by rw [taintTransfer, retaints]; rfl, names'⟩

theorem solved_keeps {w : State Chain} (visited : Solver.Visits (Chain.setup p sel)
      (Solver.start (Chain.setup p sel) (Heap.ofProgram p o.mergeStrings) chain) w) {s' : Taint}
    (before : .taint s ∈ w.handler) (listed : .taint s' ∈ t.handler) : s.marks.points ≤ s'.marks.points := by
  have vouched := visited_vouched (chain_passes made given loaded) visited
  obtain ⟨_, run⟩ := visited.resume solved
  obtain ⟨u, visited', finishes⟩ := Solver.run_some run
  have leads := visited'.leads vouched
  have ends := leads.toVouched.endPhase
  rw [← finishes.last] at ends
  obtain ⟨s'', listed'', grown⟩ := (leads.trans ends).later s before
  obtain ⟨record, _, handler⟩ := solved_outcome made declared given loaded solved
  rw [(handler s').mp listed, ← (handler s'').mp listed'']
  exact grown

end Runs

end Registry

namespace Analysis

variable {a : Analysis} {o : Options} {path : String} {config : TaintConfig}

/-- Provenance of taint under every selector: taint in points-to sets has a point, which it has kept since
taint was let in there, and reported flows have genuine sources. Every run returns. -/
theorem taint_provenance (registered : a.registry = Registry.builtin) (declared : a.program.Scoped)
    (given : o.taintConfig = some path) (loaded : TaintConfig.load a.program a.files path = .ok config)
    (sel : Selector) :
    (∀ r, a.solve o sel = .ok r → (∃ s, .taint s ∈ r.chain) ∧
      (∃ flows, r.flows? = some flows ∧ ∀ flow ∈ flows, config.Genuine a.program r.facts flow.source) ∧
      ∀ s, .taint s ∈ r.chain → config.Provenance r.facts s.marks ∧
        ∀ chain w, Registry.builtin.chain a.program o a.files = .ok chain →
          Solver.Visits (Chain.setup a.program sel) (Solver.start (Chain.setup a.program sel)
            (Heap.ofProgram a.program o.mergeStrings) chain) w →
          ∀ s', .taint s' ∈ w.handler → ∀ point ty obj,
            s'.marks.Names point ty obj → s.marks.Names point ty obj) ∧
    ∀ chain, a.registry.chain a.program o a.files = .ok chain → ∃ n, ∀ limit, n ≤ limit →
      ∃ r, { a with stepLimit := limit }.solve o sel = .ok r := by
  refine solve_spec registered sel fun chain t made run => ?_
  obtain ⟨record, outcome, handler⟩ := Registry.solved_outcome made declared given loaded run
  refine ⟨⟨_, (handler _).mpr rfl⟩, ?_, fun s listed =>
    ⟨Registry.solved_provenance made given loaded declared run listed, ?_⟩⟩
  · refine ⟨_, Result.flows?_eq handler, fun flow reported => ?_⟩
    obtain ⟨i, known⟩ := TaintConfig.mem_flows reported
    exact outcome.genuine rfl rfl rfl known
  · intro chain' w made' visited s' before point ty obj names
    cases made.symm.trans made'
    exact names.later (Registry.solved_keeps made given loaded declared run visited before listed)

end Analysis

/-- Silk that was dyed from a tainted rag is sold; the rag was got at the first call of the shop. -/
theorem Analysis.shop_provenance : ∃ r s,
    shopAnalysis.solve shopOptions (.limited (.callSite 1)) = .ok r ∧ .taint s ∈ r.chain ∧
      r.flows? = some [⟨.call ⟨5, 0⟩ (.var .result), ⟨⟨5, 3⟩, .var (.arg 0)⟩⟩] ∧
      shopTaint.Genuine shop r.facts (.call ⟨5, 0⟩ (.var .result)) ∧
      shopTaint.Provenance r.facts s.marks := by
  have run : shopRun.map (fun t => Result.flows? ⟨shop, Selector.name (.limited (.callSite 1)), t.toFacts,
      t.stats, t.handler⟩) = some (some [⟨.call ⟨5, 0⟩ (.var .result), ⟨⟨5, 3⟩, .var (.arg 0)⟩⟩]) := by
    decide +kernel
  obtain ⟨t, run, flows⟩ := Option.map_eq_some_iff.mp run
  have solved := shop_result run
  obtain ⟨⟨s, listed⟩, ⟨_, same, genuine⟩, provenance⟩ :=
    (taint_provenance rfl (by decide) rfl shop_loaded _).1 _ solved
  cases flows.symm.trans same
  exact ⟨_, s, solved, listed, flows, genuine _ (List.mem_singleton_self _), (provenance s listed).1⟩

end PointsTo
