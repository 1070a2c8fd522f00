import PointsTo.Proofs.Choosing
import PointsTo.Proofs.Sources

/-!
No object arrives before its method is ready. Calls are taken before points, so when points are taken every
method in whose frame a pointer stands is reachable, has been told to the handlers with all its statements,
and the handlers never strike out of their tables what they were told.
-/
namespace PointsTo

/-- The modelled calls of a method are found from the method, and from each variable they use. -/
def CallModels.Filled {κ : Type} (p : Program) (m : MethodId) (t : CallModels κ) : Prop :=
  ∀ c, t.Models p c → c.site.method = m →
    c ∈ t.sitesIn m ∧ ∀ u, c.call.base = some u ∨ u ∈ c.call.args → c ∈ t.watching u

/-- The tables of a handler hold what there is to know of a method: its modelled calls, the statements that
throw, and the loads of fields that are sources. -/
def Handler.Filled (p : Program) (m : MethodId) : Handler → Prop
  | .natives s => s.models.Filled p m
  | .reflection s => s.models.Filled p m
  | .exceptions s => ∀ site u, site.method = m → p.stmt? site = some (.throw u) → (u, site) ∈ s.throwSites
  | .taint s => ∀ site u g, site.method = m → p.Loads site u g → (s.sources.fieldTy? g).isSome = true →
      (site, u, g) ∈ s.sources.loads
  | _ => True

/-- All that the arrival of an object at a variable of a method relies on. -/
structure State.Prepared (p : Program) (s : State Chain) (c : ContextId) (v : VarId) (m : MethodId) : Prop where
  seen : m ∈ s.seen
  reaches : s.Reaches c m
  registered : ∀ site stmt u, p.stmt? site = some stmt → stmt.base? = some u → site.method = m ∨ u = v →
    (site, stmt) ∈ s.basedOn p u
  filled : ∀ h ∈ s.handler, h.Filled p m

section

variable {σ : Type u} {p : Program} {m : MethodId} {record : List (Moment σ)}

theorem CallModels.Knows.filled {κ : Type} {t models : CallModels κ} (knows : t.Knows p models record)
    (tells : m ∈ told Event.method? record) : t.Filled p m := by
  rintro c made rfl
  have made' := (models_of_table knows.table).mp made
  exact ⟨knows.site made' tells, fun _ used => knows.watched made' tells used⟩

theorem Exceptions.throwSites_replay {first : Exceptions} {site : StmtRef} {v : VarId}
    (tells : site ∈ told Event.stmt? record) (stmt : p.stmt? site = some (.throw v)) :
    (v, site) ∈ (replay (fun e f s => Exceptions.react p s f e) first record).throwSites := by
  induction record using List.reverseRecOn with
  | nil => cases tells
  | append_singleton past x ih =>
    rw [told_snoc, List.mem_append, Option.mem_toList] at tells
    rw [replay_snoc]
    rcases tells with before | here
    · have known := ih before
      generalize replay (fun e f s => Exceptions.react p s f e) first past = s at known
      have meets : (s.react p x.facts x.event).Meets (fun s => (v, site) ∈ s.throwSites) (fun _ => True)
          fun _ => True := by
        refine react_meets (fun s t known (_ : True) => ⟨?_, fun _ _ => trivial, fun _ _ => trivial⟩) known
          (fun _ _ _ => List.mem_append_left _ known) (fun _ _ _ _ _ _ _ _ => trivial)
          fun _ _ _ _ _ _ _ => trivial
        unfold throwOne
        dsimp only
        split <;> exact known
      exact meets.state
    · rw [Event.stmt?_eq_some.mp here]
      simp [react, stmt]

theorem Reflection.knows_models {first : Reflection} (fresh : first.models.recorded = []) :
    (replay (fun e f s => Reflection.react p s f e) first record).models.Knows p first.models record := by
  refine CallModels.knows_replay Reflection.models (fun _ _ _ => rfl) (fun e f s other => ?_) fresh record
  -- arrivals change the table of classes only
  have meets : (s.react p f e).Meets (fun t => t.models = s.models) (fun _ => True) fun _ => True := by
    refine react_meets rfl (fun m event => ?_) (fun _ _ _ _ _ _ _ _ => ⟨trivial, trivial⟩)
      fun _ _ _ _ u _ c r _ _ kept _ _ updates => ⟨?_, fun _ _ => trivial, fun _ _ => trivial⟩
    · rw [event] at other
      cases other
    · obtain ⟨_, same⟩ := updates.state
      rw [same]
      exact kept
  exact meets.state

theorem Handler.filled_of_id {h : Handler} (other : h.id ∉ ["native", "exception", "reflection", "taint"]) :
    h.Filled p m := by
  cases h with
  | natives | exceptions | reflection | taint => simp [id] at other
  | _ => trivial

/-- A built-in handler that was told of a method and its statements has filled its tables. -/
theorem Registry.Makes.filled {o : Options} {config : TaintConfig} {h : Handler} (makes : Makes p o config h)
    (method : m ∈ told Event.method? record) (stmts : ∀ entry ∈ p.stmtRefs m, entry.1 ∈ told Event.stmt? record) :
    (replay (Handler.react p) h record).Filled p m := by
  have told {site : StmtRef} {stmt : Stmt} (there : site.method = m) (known : p.stmt? site = some stmt) :
      site ∈ told Event.stmt? record := stmts (site, stmt) (Program.mem_stmtRefs.mpr ⟨there, known⟩)
  cases makes with
  | natives =>
    have commutes : ∀ e f s, Handler.react p e f (.natives s) = (Natives.react p s f e).map .natives :=
      fun _ _ _ => rfl
    rw [replay_wrap commutes]
    exact (Natives.knows_replay rfl record).filled method
  | reflection =>
    have commutes : ∀ e f s, Handler.react p e f (.reflection s) = (Reflection.react p s f e).map .reflection :=
      fun _ _ _ => rfl
    rw [replay_wrap commutes]
    exact (Reflection.knows_models rfl).filled method
  | exceptions =>
    have commutes : ∀ e f s, Handler.react p e f (.exceptions s) = (Exceptions.react p s f e).map .exceptions :=
      fun _ _ _ => rfl
    rw [replay_wrap commutes]
    exact fun site v there stmt => Exceptions.throwSites_replay (told there stmt) stmt
  | taint =>
    rw [Taint.replay_eq]
    intro site u g there loads source
    rw [TaintSources.fieldTy?, (Taint.after_frame p _ record).2.1] at source
    have tells : site ∈ PointsTo.told Event.stmt? record := by
      cases loads with
      | field stmt => exact told there stmt
      | static stmt => exact told there stmt
    exact (Taint.mem_loads_after p _ rfl record).mpr ⟨tells, loads, source⟩
  | _ => exact Handler.filled_of_id (by rw [Handler.id_replay]; simp [Handler.id])

end

namespace Registry

variable {p : Program} {o : Options} {files : FileTree} {chain : Chain}

/-- No object arrives before its method's statements are registered. Whenever a state of a run takes points
of a variable, the method of the variable has been seen and is reachable in the context of the points, its
statements are registered with the variables they are based on, and the tables of the handlers are filled. -/
theorem arrivals_prepared (made : builtin.chain p o files = .ok chain) (declared : p.Scoped) (sel : Selector)
    {s : State Chain} (visited : Solver.Visits (Chain.setup p sel)
      (Solver.start (Chain.setup p sel) (Heap.ofProgram p o.mergeStrings) chain) s)
    {q : PointerId} {set : ObjSet} {rest : Worklist}
    (taken : s.worklist.poll? = some (.points q set, rest)) {c : ContextId} {v : VarId}
    (known : s.elements.pointer? q = some (.var c v)) :
    s.handler.ids = chain.ids ∧ ∃ decl, p.vars[v]? = some decl ∧ s.Prepared p c v decl.method := by
  obtain ⟨config, makes⟩ := chain_makes made
  have confined := (Solver.start_confined (Chain.confinement (p.worldWith sel o.mergeStrings config)) rfl rfl
    fun h member => (makes h member).stays).visits visited
  obtain ⟨m, mentions⟩ := Program.mentions_of_mem_allVars (World.var_mem _ |>.mp (confined.pointers q _ known)).2
  obtain ⟨w, heeds, rfl⟩ := visited_heeds made declared visited
  -- calls are taken first, so none waits, and every interned frame is reachable
  have none : w.worklist.calls = [] := (Solver.poll?_some taken).2
  have placed := (heeds.settles.obeys (.pointer q _) known).2 c v rfl m mentions
  have interned := Facts.interned_of_placed (fun _ _ => not_false) placed
  have seen : m ∈ w.seen := heeds.settles.registered none interned
  obtain ⟨method, stmts⟩ := heeds.told seen
  obtain ⟨body, code, member⟩ := id mentions
  obtain ⟨decl, known, rfl⟩ := Option.map_eq_some_iff.mp (declared m body code v member)
  have handler : w.plain.handler = chain.map fun h => replay (Handler.react p) h w.record :=
    Chain.handler_now heeds
  refine ⟨?_, decl, known, seen, heeds.settles.reaches none interned, ?_, ?_⟩
  · simp [Chain.ids, handler, Handler.id_replay]
  · intro site stmt u there on own
    refine State.mem_basedOn.mpr ⟨?_, there, on⟩
    rcases own with same | rfl
    · exact same ▸ seen
    · exact declared.same mentions (Program.mentions_of_stmt there (Or.inl (State.uses_of_base? on))) ▸ seen
  · rw [handler]
    intro h listed
    obtain ⟨first, member, rfl⟩ := List.mem_map.mp listed
    exact (makes first member).filled method stmts

end Registry

namespace Solver

def after? {σ : Type u} (cx : Setup σ) : Nat → State σ → Option (State σ)
  | 0, s => some s
  | n + 1, s => (after? cx n s).bind fun t =>
    match step cx t with
    | .running u => some u
    | .finished _ => none

theorem Visits.of_after? {σ : Type u} {cx : Setup σ} {first s : State σ} {n : Nat}
    (there : after? cx n first = some s) : Visits cx first s := by
  induction n generalizing s with
  | zero =>
    cases there
    exact .here
  | succ n ih =>
    obtain ⟨t, before, stepped⟩ := Option.bind_eq_some_iff.mp there
    split at stepped
    · next running =>
      cases stepped
      exact (ih before).next running
    · cases stepped

end Solver

/-- The rag that is got arrives in `main`, whose load of the brand, a source, is known by then. -/
theorem Registry.shop_prepared : ∃ s q set rest, Solver.Visits (Chain.setup shop (.limited (.callSite 1)))
      (Solver.start (Chain.setup shop (.limited (.callSite 1))) (Heap.ofProgram shop true) shopChain) s ∧
    s.worklist.poll? = some (.points q set, rest) ∧ s.elements.pointer? q = some (.var 0 8) ∧
    shop.Loads ⟨5, 6⟩ 11 0 ∧ s.Prepared shop 0 8 5 := by
  have there : (Solver.after? (Chain.setup shop (.limited (.callSite 1))) 14
      (Solver.start (Chain.setup shop (.limited (.callSite 1))) (Heap.ofProgram shop true) shopChain)).any
      (fun s => match s.worklist.poll? with
        | some (.points q _, _) => decide (s.elements.pointer? q = some (.var 0 8))
        | some (.call _, _) | none => false) = true := by decide +kernel
  obtain ⟨s, after, arrives⟩ := (Option.any_eq_true _ _).mp there
  have visited := Solver.Visits.of_after? after
  split at arrives
  · next q set rest taken =>
    have known := of_decide_eq_true arrives
    obtain ⟨_, decl, same, prepared⟩ := arrivals_prepared shop_chain (by decide) _ visited taken known
    cases same
    exact ⟨s, q, set, _, visited, taken, known, .static rfl, prepared⟩
  all_goals cases arrives

end PointsTo
