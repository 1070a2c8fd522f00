import PointsTo.Proofs.Closure
import PointsTo.Proofs.Silence

/-!
Where methods come from. A method is grounded if it is an entry method or is called in a method that is
grounded. Whatever the solver does, all methods that are known are grounded, and only methods that were
reached are registered.
-/
namespace PointsTo

theorem Facts.interned_of_placed {f : Facts} {law : Law} (strict : ∀ c m, ¬ law.excused c m)
    {c : ContextId} {m : MethodId} (placed : f.Placed law c m) : f.Interned c m := by
  rcases placed with interned | ⟨frame, _, excused⟩
  · exact interned
  · exact absurd excused (strict frame m)

namespace State

variable {σ : Type u} {cx : Setup σ} {s t : State σ} {context c : ContextId} {site : StmtRef} {m : MethodId}
  {R : Regime cx}

/-- Calls lead to the method from an entry method, also if they are still to be recorded. -/
inductive Grounded (s : State σ) : CsMethodId → Prop
  | entry {id : CsMethodId} (starts : id ∈ s.calls.entries) : Grounded s id
  | called {e : CallEdge} {caller : CsMethodId} {c : ContextId} {site : StmtRef}
      (made : e ∈ s.calls.edges ∨ e ∈ s.worklist.calls)
      (place : s.elements.site? e.site = some (c, site))
      (known : s.elements.method? caller = some (c, site.method)) (grounded : Grounded s caller) :
      Grounded s e.callee

/-- All known methods are grounded, and all registered ones reachable in some context. -/
structure Rooted (s : State σ) : Prop where
  grounded : ∀ id x, s.elements.method? id = some x → s.Grounded id
  seen : ∀ m ∈ s.seen, ∃ c, s.Reaches c m

theorem Grounded.later {id : CsMethodId} (grounded : s.Grounded id) (grown : s.toFacts.Extends t.toFacts)
    (calls : ∀ e, e ∈ s.calls.edges ∨ e ∈ s.worklist.calls → e ∈ t.calls.edges ∨ e ∈ t.worklist.calls) :
    t.Grounded id := by
  induction grounded with
  | entry starts => exact .entry (grown.entries _ starts)
  | called made place known _ ih =>
    exact .called (calls _ made) (grown.sites _ _ place) (grown.methods _ _ known) ih

theorem Rooted.same (rooted : s.Rooted) (grown : s.toFacts.Extends t.toFacts)
    (calls : ∀ e, e ∈ s.calls.edges ∨ e ∈ s.worklist.calls → e ∈ t.calls.edges ∨ e ∈ t.worklist.calls)
    (methods : t.elements.methods = s.elements.methods) (seen : t.seen = s.seen) : t.Rooted where
  grounded := by
    intro id x known
    rw [Elements.method?, methods] at known
    exact (rooted.grounded id x known).later grown calls
  seen := by
    intro m registered
    rw [seen] at registered
    exact (rooted.seen m registered).imp fun _ reaches => grown.reaches reaches

theorem Rooted.quiet (rooted : s.Rooted) (quiet : s.Quiet t)
    (methods : t.elements.methods = s.elements.methods) : t.Rooted :=
  rooted.same quiet.grown quiet.keeps.calls methods quiet.seen

theorem Rooted.hush (rooted : s.Rooted) (hush : s.Hush t) : t.Rooted :=
  rooted.quiet hush.toQuiet hush.methods

theorem Rooted.notify (rooted : s.Rooted) (e : Event) : (s.notify cx e).Rooted :=
  rooted.quiet (notify_quiet s cx e) rfl

/-- The callee is new at most, and the call of it was made in a method that is known. -/
theorem Rooted.callTo (rooted : s.Rooted) (kind : CallKind) (receiver : Option Receiver) (callee : MethodId)
    (known : s.Interned context site.method) : (s.callTo cx kind context site receiver callee).1.Rooted := by
  have quiet := callTo_quiet s cx kind context site receiver callee
  have kept : ∀ id, s.Grounded id → (s.callTo cx kind context site receiver callee).1.Grounded id :=
    fun id grounded => grounded.later quiet.grown quiet.keeps.calls
  refine ⟨fun id x found => ?_, fun m registered =>
    (rooted.seen m registered).imp fun _ reaches => quiet.grown.reaches reaches⟩
  rcases Table.get?_intern_inv found with old | ⟨_, rfl⟩
  · exact kept id (rooted.grounded id x old)
  · obtain ⟨caller, method⟩ := known
    have place : (s.callTo cx kind context site receiver callee).1.elements.site?
        ((s.selectCallee cx context site receiver callee).1.internSite context site).2 =
          some (context, site) := Table.get?_intern_self _ _
    exact .called (Or.inr (List.mem_append_right _ List.mem_cons_self)) place
      (quiet.grown.methods _ _ method) (kept caller (rooted.grounded caller _ method))

theorem Rooted.murmurs {place : ContextId → StmtRef → Prop} {on : CsObjId → Prop} (rooted : s.Rooted)
    (murmurs : s.Murmurs cx place on t) (known : ∀ c site, place c site → s.Interned c site.method) :
    t.Rooted := by
  induction murmurs with
  | hush hush => exact rooted.hush hush
  | calls s kind receiver callee here => exact rooted.callTo kind receiver callee (known _ _ here)
  | unresolved s => exact rooted.notify _
  | trans first _ ih ih' =>
    exact ih' (ih rooted known) fun c site here => first.quiet.grown.interned (known c site here)

theorem Rooted.registerMethod (rooted : s.Rooted) (reaches : s.Reaches c m) : (s.registerMethod cx m).Rooted := by
  unfold State.registerMethod
  split
  · exact rooted
  · have registered : State.Rooted { s with seen := s.seen ++ [m] } := by
      refine ⟨fun id x known => ?_, List.forall_mem_append.mpr
        ⟨rooted.seen, List.forall_mem_singleton.mpr ⟨c, reaches⟩⟩⟩
      exact (rooted.grounded id x known).later (Facts.Extends.refl _) fun _ made => made
    exact List.foldlRecOn _ _ (registered.notify _) fun t rooted' _ _ => rooted'.notify _

theorem Rooted.reach (rooted : s.Rooted) {id : CsMethodId} (known : s.elements.method? id = some (context, m)) :
    (s.reach cx id).Rooted := by
  by_cases before : id ∈ s.calls.reachable
  · rw [reach_known before]
    exact rooted
  · rw [reach_new before known]
    have marked : (s.marking id).Rooted :=
      rooted.same (marking_keeps s id).grown (marking_keeps s id).calls rfl rfl
    have reaches : (s.marking id).Reaches context m := ⟨id, mem_marking.mpr (Or.inr rfl), known⟩
    refine ((marked.registerMethod reaches).murmurs (runAll_murmurs _ cx context m) ?_).notify _
    rintro c site ⟨rfl, rfl⟩
    exact ⟨id, (registerMethod_delivers (p := cx.program) _ cx site.method).grown.methods _ _ known⟩

/-- The edge that is processed has left the worklist, so it counts as recorded from the beginning. -/
theorem Rooted.processCall {e : CallEdge} {x : ContextId × MethodId} (rooted : (s.recording e).Rooted)
    (known : s.elements.method? e.callee = some x) : (s.processCall cx e).Rooted := by
  by_cases before : e ∈ s.calls.edges
  · rw [processCall_known before]
    have same : s.recording e = s := by
      rcases CallGraph.addEdge_cases s.calls e with ⟨_, equal⟩ | ⟨new, _⟩
      · rw [recording, equal]
      · exact absurd before new
    exact same ▸ rooted
  · rw [processCall_new before]
    exact ((rooted.reach known).hush (passing_hush _ cx e)).notify _

theorem Rooted.processPoints (rooted : s.Rooted) {q : PointerId} {set : ObjSet}
    (known : ∀ o ∈ set, ∃ ptr, s.elements.pointer? q = some ptr ∧
      ∀ c v, ptr = .var c v → ∀ m, cx.program.Mentions m v → s.Interned c m) :
    (s.processPoints cx q set).Rooted := by
  have grown := filled_grown s q set
  have filled : (s.filled q set).Rooted := rooted.same grown (fun _ made => made) rfl rfl
  rw [processPoints_eq]
  split
  · exact filled
  · next some_ =>
    have sent := sendAll_hush (p := cx.program) (s.filled q set) q (s.news q set)
    refine ((filled.hush sent).murmurs (applying_murmurs _ cx q _) ?_).notify _
    rintro c site ⟨v, stmt, pointer, _, there, based⟩
    -- one of the new objects tells which pointer it is
    obtain ⟨o, member⟩ := Classical.not_forall_not.mp fun all => some_ (ObjSet.isEmpty_iff.mpr all)
    obtain ⟨ptr, before, interned⟩ := known o (subset_of_admitted (mem_news.mp member).1)
    have same := (sent.grown.pointers _ _ (grown.pointers _ _ before)).symm.trans pointer
    have mentions := Program.mentions_of_stmt there (Or.inl (uses_of_base? based))
    exact sent.grown.interned (grown.interned (interned c v (Option.some.inj same) _ mentions))

theorem Rooted.enter (rooted : s.Rooted) (entry : EntryPoint) : (s.enter cx entry).Rooted := by
  have known : (s.noting entry.method).elements.method?
      (s.internMethod ContextTable.emptyId entry.method).2 = some (ContextTable.emptyId, entry.method) :=
    Table.get?_intern_self _ _
  have noted : (s.noting entry.method).Rooted := by
    have keeps := noting_keeps s entry.method
    refine ⟨fun id x found => ?_, fun m registered =>
      (rooted.seen m registered).imp fun _ reaches => keeps.grown.reaches reaches⟩
    rcases Table.get?_intern_inv found with old | ⟨_, rfl⟩
    · exact (rooted.grounded id x old).later keeps.grown keeps.calls
    · exact .entry (mem_noting.mpr (Or.inr rfl))
  exact (noted.reach known).hush (enter_hush s cx entry)

theorem Rooted.addCall (rooted : s.Rooted) (kind : CallKind) (callee : MethodId) (receiver : Option CsObjId)
    (known : s.Interned context site.method) : (s.addCall cx kind context site callee receiver).Rooted := by
  unfold State.addCall
  dsimp only
  split
  · exact (rooted.callTo kind _ callee known).hush
      ((internPointer_hush _ _).trans (pushPoints_hush _ _ _))
  · exact rooted.callTo kind _ callee known

theorem Rooted.apply (rooted : s.Rooted) {law : Law} {c : Command}
    (permitted : s.Permits cx.program cx.selector law c) : (s.apply cx c).Rooted := by
  cases c with
  | addEntryPoint entry => exact rooted.enter entry
  | addFilter pointer keep =>
    have resolved := rooted.hush (resolvePointer_hush s pointer)
    have attached : ∀ late, State.Rooted { (s.resolvePointer pointer).1 with
        elements := (s.resolvePointer pointer).1.elements.addFilter (s.resolvePointer pointer).2 keep
        refilter := late } := fun late =>
      resolved.same { Facts.Extends.refl _ with } (fun _ made => made) rfl rfl
    simp only [State.apply]
    split
    · split <;> exact attached _
    · exact attached _
  | addCall kind context site callee receiver =>
    cases receiver with
    | none => exact rooted.addCall kind callee none permitted.choose_spec.2.1
    | some r =>
      obtain ⟨_, _, _, known, _⟩ := permitted
      have resolved := resolveObj_hush s r
      exact (rooted.hush resolved).addCall kind callee _ (resolved.grown.interned known)
  | _ => exact rooted.hush (apply_hush s cx _ (by simp) (by simp) (by simp))

theorem Settles.reaches (settles : s.Settles R) (none : s.worklist.calls = []) (interned : s.Interned c m) :
    s.Reaches c m := by
  obtain ⟨id, known⟩ := interned
  rcases settles.awaited id _ known with reachable | ⟨e, waiting, _⟩
  · exact ⟨id, reachable, known⟩
  · rw [none] at waiting
    cases waiting

theorem Rooted.endPhase (rooted : s.Rooted) (lawful : s.Lawful R) : (s.endPhase cx).Rooted := by
  have keeps := lawful.endPhase.2.1.toKeeps
  obtain ⟨created, facts⟩ := endPhase_facts s cx lawful.heard.2.2
  refine rooted.same keeps.grown keeps.calls ?_ rfl
  rw [facts]
  exact (lateRemovals_trims s).methods

end State

namespace Solver

open State

variable {σ : Type u} {cx : Setup σ} {R : Regime cx} {policy : Policy} {s t : State σ} {heap : Heap} {handler : σ}

theorem Step.rooted (step : Step cx policy s t) (lawful : s.Lawful R)
    (strict : ∀ c m, ¬ R.law.excused c m) (rooted : s.Rooted) : t.Rooted := by
  cases step with
  | command queue =>
    rename_i c rest
    have popped : (s.popping rest).Rooted :=
      rooted.same (Facts.Extends.refl _) (fun _ made => made) rfl rfl
    exact popped.apply (lawful.permitted queue)
  | call queue allowed taken =>
    rename_i e worklist
    obtain ⟨waiting, others⟩ := taken.calls_call
    obtain ⟨_, _, _, _, ⟨_, ⟨_, known, _⟩⟩, _⟩ := lawful.obeys (.call e) (Or.inr waiting)
    have keeps := recording_keeps (s.taking worklist) e
    refine Rooted.processCall (s := s.taking worklist) ?_ known
    -- the edge that was taken off the worklist is recorded instead
    refine rooted.same keeps.grown (fun d made => ?_) rfl rfl
    rcases made with recorded | there
    · exact keeps.calls d (Or.inl recorded)
    · rcases others d there with still | rfl
      · exact keeps.calls d (Or.inr still)
      · exact Or.inl (mem_recording.mpr (Or.inr rfl))
  | points queue allowed taken =>
    rename_i q set worklist
    have before : (s.taking worklist).Rooted := rooted.same (Facts.Extends.refl _)
      (fun d made => made.imp_right fun there => taken.calls_points ▸ there) rfl rfl
    refine before.processPoints fun o member => ?_
    obtain ⟨_, _, ⟨ptr, pointer, _⟩, _⟩ := lawful.obeys (.points q o) (Or.inr (taken.pending_set member))
    refine ⟨ptr, pointer, fun c v same m mentions => ?_⟩
    exact Facts.interned_of_placed strict ((lawful.obeys (.pointer q ptr) pointer).2 c v same m mentions)
  | phase queue idle more => exact rooted.endPhase lawful

theorem Runs.rooted (run : Runs cx policy (start cx heap handler) s) (opens : R.Opens heap handler)
    (strict : ∀ c m, ¬ R.law.excused c m) : s.Rooted := by
  refine (run.induct (fun s => s.Lawful R ∧ s.Rooted) ⟨(start_settles opens).toLawful, ?_⟩ ?_).2
  · exact ⟨(fun _ _ known => nomatch known), List.forall_mem_nil _⟩
  · rintro s t ⟨lawful, rooted⟩ step
    exact ⟨(step.lawful lawful).1, step.rooted lawful strict rooted⟩

theorem Solves.rooted (solved : Solves cx policy heap handler t) (opens : R.Opens heap handler)
    (strict : ∀ c m, ¬ R.law.excused c m) : t.Rooted := by
  obtain ⟨s, run, finishes⟩ := solved
  rw [finishes.last]
  exact (run.rooted opens strict).endPhase (run.lawful opens).1

end Solver

end PointsTo
