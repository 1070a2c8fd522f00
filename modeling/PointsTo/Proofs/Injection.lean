import PointsTo.Proofs.Closure

/-!
Facts that a handler injects into a run, at the start or when the method of their variable is reached.
Early facts never find more, and less only if a load, a store or a call was not applied to an object
that lay there early.
-/
namespace PointsTo

namespace State

variable {σ : Type u} {cx : Setup σ} {s : State σ}

/-- The handler was told that a method is reachable, and what it asked for then is queued or due. -/
def Heeded (cx : Setup σ) (s : State σ) (id : CsMethodId) : Prop :=
  ∃ f h, f.Extends s.toFacts ∧ (∃ x, f.elements.method? id = some x) ∧
    ∀ c ∈ (cx.handlers.react (.csMethodReached id) f h).commands,
      c ∈ s.queue ∨ ∀ x, f.Asks cx.program c x → s.Due x

theorem Told.heeded {id : CsMethodId} (told : s.Told cx id) : s.Heeded cx id := by
  obtain ⟨f, h, grown, known, queued⟩ := told
  exact ⟨f, h, grown, known, fun c member => Or.inl (queued c member)⟩

end State

namespace Solver

open State

variable {σ : Type u} {cx : Setup σ} {R : Regime cx} {policy : Policy} {s t : State σ}

theorem Step.told (step : Step cx Policy.callsFirst s t) (settles : s.Settles R) {id : CsMethodId}
    (reachable : id ∈ t.calls.reachable) : id ∈ s.calls.reachable ∨ t.Told cx id := by
  obtain ⟨u, same, proceeds, _⟩ := step.proceeds settles
  rw [← same]
  exact proceeds.told id reachable

theorem Step.heeded (step : Step cx policy s t) (lawful : s.Lawful R) {id : CsMethodId}
    (heeded : s.Heeded cx id) : t.Heeded cx id := by
  obtain ⟨f, h, grown, known, asked⟩ := heeded
  have keeps := (step.lawful lawful).2
  refine ⟨f, h, grown.trans keeps.grown, known, fun c member => ?_⟩
  rcases asked c member with queued | due
  · exact (step.queued lawful queued).imp_right fun all x wanted => all x (grown.asks wanted)
  · exact Or.inr fun x wanted => keeps.due (due x wanted)

/-- What a handler asks for when it is told that a method is reachable is found in the end. -/
theorem Solves.heeded {heap : Heap} {handler : σ} (solved : Solves cx Policy.callsFirst heap handler t)
    (starts : R.Starts heap handler) {id : CsMethodId} (reachable : id ∈ t.calls.reachable) :
    ∃ f h, f.Extends t.toFacts ∧ (∃ x, f.elements.method? id = some x) ∧
      ∀ c ∈ (cx.handlers.react (.csMethodReached id) f h).commands,
        ∀ x, f.Asks cx.program c x → t.Found x := by
  have rests := solved.rests starts
  obtain ⟨s, run, finishes⟩ := solved
  -- every method that has been reached so far is heeded: new ones are told, old ones stay heeded
  obtain ⟨settles, heeds⟩ := run.induct
    (fun s => s.Settles R ∧ ∀ id ∈ s.calls.reachable, s.Heeded cx id)
    ⟨start_settles starts.toOpens, fun id member => by cases member⟩ <| by
      rintro s t ⟨settles, heeds⟩ step
      refine ⟨step.settles settles, fun id member => ?_⟩
      rcases step.told settles member with before | told
      · exact step.heeded settles.toLawful (heeds id before)
      · exact told.heeded
  have quiet := settles.toLawful.endPhase_quiet starts.pure
  rw [← finishes.last] at quiet
  obtain ⟨f, h, grown, known, asked⟩ := heeds id (quiet.calls ▸ reachable)
  refine ⟨f, h, grown.trans quiet.grown, known, fun c member x wanted => ?_⟩
  rcases asked c member with queued | due
  · rw [finishes.queue] at queued
    cases queued
  · exact rests.found (quiet.keeps.due (due x wanted))

end Solver

/-- A variable of a method in a context, and an object in a heap context for it. -/
structure Injection where
  method : MethodId
  context : ContextId
  var : VarId
  heapContext : ContextId
  obj : Obj

namespace Injection

def command (x : Injection) : Command :=
  .addPointsTo (.var x.context x.var) [.described x.heapContext x.obj]

/-- The variable belongs to the method, and the contexts are known when a run starts. -/
structure Valid (p : Program) (x : Injection) : Prop where
  owner : (p.vars[x.var]?).map VarDecl.method = some x.method
  context : (ContextTable.empty.entries.get? x.context).isSome = true
  heapContext : (ContextTable.empty.entries.get? x.heapContext).isSome = true

/-- What a valid injection injects; the one context that a run knows when it starts has no elements. -/
def fact (x : Injection) : Fact := .points (.var [] x.var) ⟨[], x.obj⟩

variable {p : Program} {x : Injection}

theorem frameOf_initial {c : ContextId} (known : (ContextTable.empty.entries.get? c).isSome = true)
    (f : Facts) : f.FrameOf c [] := by
  obtain ⟨elems, found⟩ := Option.isSome_iff_exists.mp known
  rcases Table.get?_intern_inv found with old | ⟨_, rfl⟩
  · cases old
  · exact f.frameOf_empty

theorem Valid.pointer (valid : x.Valid p) (f : Facts) :
    f.PointerRefIs (.var x.context x.var) (.var [] x.var) :=
  ⟨frameOf_initial valid.context f, rfl⟩

theorem Valid.item (valid : x.Valid p) (f : Facts) :
    f.ObjRefIs (.described x.heapContext x.obj) ⟨[], x.obj⟩ :=
  ⟨frameOf_initial valid.heapContext f, rfl⟩

theorem Valid.asks (valid : x.Valid p) (f : Facts) : f.Asks p x.command x.fact :=
  ⟨valid.pointer f, _, List.mem_singleton.mpr rfl, valid.item f⟩

theorem Valid.method (valid : x.Valid p) (declared : p.Scoped) {m : MethodId}
    (mentions : p.Mentions m x.var) : m = x.method := by
  obtain ⟨body, code, listed⟩ := mentions
  have owner := declared m body code x.var listed
  rw [valid.owner] at owner
  exact (Option.some.inj owner).symm

end Injection

variable {σ : Type u}

/-- A handler that starts a run at entry points, and injects some facts at once and others when their
methods are reached. -/
structure Injects (cx : Setup σ) (heap : Heap) (handler : σ) (entries : List EntryPoint)
    (early late : List Injection) : Prop where
  start : ∀ c, c ∈ (cx.handlers.react .started { heap } handler).commands ↔
    (∃ entry ∈ entries, c = .addEntryPoint entry) ∨ ∃ x ∈ early, c = x.command
  reach : ∀ id f h c, c ∈ (cx.handlers.react (.csMethodReached id) f h).commands ↔
    ∃ x ∈ late, f.elements.method? id = some (x.context, x.method) ∧ c = x.command
  silent : ∀ e f h, e ≠ .started → (∀ id, e ≠ .csMethodReached id) →
    (cx.handlers.react e f h).commands = []
  idle : ∀ f n h, (cx.handlers.phaseEnd f n h).commands = [] ∧
    (cx.handlers.phaseEnd f n h).removals = []

/-- The handler that does so and nothing else. -/
def Injection.handlers (entries : List EntryPoint) (early late : List Injection) : Handlers Unit where
  react := fun e f _ =>
    { state := ()
      commands := match e with
        | .started => entries.map .addEntryPoint ++ early.map Injection.command
        | .csMethodReached id =>
          (late.filter fun x => f.elements.method? id = some (x.context, x.method)).map Injection.command
        | _ => [] }
  phaseEnd := fun _ _ _ => { state := () }

theorem Injection.injects_handlers (p : Program) (sel : Selector) (heap : Heap)
    (entries : List EntryPoint) (early late : List Injection) :
    Injects ⟨p, sel, handlers entries early late⟩ heap () entries early late where
  start := by
    intro c
    simp only [handlers, List.mem_append, List.mem_map, eq_comm]
  reach := by
    intro id f _ c
    simp only [handlers, List.mem_map, List.mem_filter, decide_eq_true_eq, and_assoc]
    constructor
    · rintro ⟨x, member, known, rfl⟩
      exact ⟨x, member, known, rfl⟩
    · rintro ⟨x, member, known, rfl⟩
      exact ⟨x, member, known, rfl⟩
  silent := by
    intro e f _ started told
    cases e with
    | started => exact absurd rfl started
    | csMethodReached id => exact absurd rfl (told id)
    | _ => rfl
  idle := fun _ _ _ => ⟨rfl, rfl⟩

def Given (p : Program) (entries : List EntryPoint) (facts : List Injection) (x : Fact) : Prop :=
  (∃ entry ∈ entries, entry.Gives p x) ∨ ∃ y ∈ facts, x = y.fact

namespace Injects

variable {cx : Setup σ} {heap : Heap} {handler : σ} {entries : List EntryPoint} {early late : List Injection}
  {t : State σ} {holds : Fact → Prop} {R : Regime cx} {policy : Policy} {x : Injection}

/-- Facts that are injected early lie where their method may not be known yet. -/
def law (holds : Fact → Prop) (early : List Injection) : Law where
  holds := holds
  excused := fun c m => c = [] ∧ ∃ x ∈ early, x.method = m
  injected := fun fact => ∃ x ∈ early, fact = x.fact

/-- A closed set is a law for the handler if it has the methods and the facts. -/
def regime (injects : Injects cx heap handler entries early late) (declared : cx.program.Scoped)
    (owned : ∀ x ∈ late, x.Valid cx.program)
    (closed : Closed (Rule cx.program cx.selector heap.rules) holds)
    (given : ∀ x ∈ late, holds x.fact) (reached : ∀ x ∈ early, holds (.reached [] x.method)) :
    Regime cx where
  law := law holds early
  rules := heap.rules
  closed := closed
  excuse := by
    rintro c m ⟨rfl, x, member, rfl⟩
    exact reached x member
  exact := fun _ _ _ _ _ _ => False.elim
  declared := declared
  Good := fun _ _ => True
  mono := fun _ _ _ _ _ => trivial
  react := by
    intro e f h _ _ named _
    refine ⟨trivial, fun c asked => ?_⟩
    by_cases tells : ∃ id, e = .csMethodReached id
    · obtain ⟨id, rfl⟩ := tells
      obtain ⟨x, member, known, rfl⟩ := (injects.reach id f h c).mp asked
      have valid := owned x member
      refine ⟨.var [] x.var, valid.pointer f, fun r listed => ?_, fun c v same => Or.inl ?_⟩
      · cases List.mem_singleton.mp listed
        exact ⟨⟨[], x.obj⟩, valid.item f, given x member⟩
      · intro m mentions
        cases same
        rw [valid.method declared mentions]
        exact ⟨id, known⟩
    · rw [injects.silent e f h (fun same => by rw [same] at named; exact named)
        fun id same => tells ⟨id, same⟩] at asked
      cases asked
  phaseEnd := by
    intro n f h _ _
    refine ⟨trivial, fun c member => ?_, (injects.idle f n h).2⟩
    rw [(injects.idle f n h).1] at member
    cases member

variable (injects : Injects cx heap handler entries early late)

include injects

theorem starts (declared : cx.program.Scoped) (owned : ∀ x ∈ early, x.Valid cx.program)
    (owned' : ∀ x ∈ late, x.Valid cx.program) (closed : Closed (Rule cx.program cx.selector heap.rules) holds)
    (given : ∀ x, Given cx.program entries early x → holds x) (given' : ∀ x ∈ late, holds x.fact)
    (reached : ∀ x ∈ early, holds (.reached [] x.method)) :
    (injects.regime declared owned' closed given' reached).Starts heap handler where
  rules := rfl
  good := trivial
  pure := not_false
  permitted := by
    intro c asked
    rcases (injects.start c).mp asked with ⟨entry, member, rfl⟩ | ⟨x, member, rfl⟩
    · exact fun x gives => given x (Or.inl ⟨entry, member, gives⟩)
    · have valid := owned x member
      refine ⟨.var [] x.var, valid.pointer _, fun r listed => ?_, fun c v same => Or.inr ⟨?_, ?_⟩⟩
      · cases List.mem_singleton.mp listed
        exact ⟨⟨[], x.obj⟩, valid.item _, given _ (Or.inr ⟨x, member, rfl⟩)⟩
      · intro m mentions
        cases same
        exact Or.inr ⟨[], Injection.frameOf_initial valid.context _, rfl, x, member,
          (valid.method declared mentions).symm⟩
      · intro r listed
        cases List.mem_singleton.mp listed
        exact ⟨⟨[], x.obj⟩, valid.item _, x, member, rfl⟩

theorem found_early (starts : R.Starts heap handler) (solved : Solver.Solves cx policy heap handler t)
    (member : x ∈ early) (valid : x.Valid cx.program) : t.Found x.fact :=
  solved.asked starts ((injects.start _).mpr (Or.inr ⟨x, member, rfl⟩)) (valid.asks _)

theorem found_entry (starts : R.Starts heap handler) (solved : Solver.Solves cx policy heap handler t)
    {entry : EntryPoint} (member : entry ∈ entries) {x : Fact} (gives : entry.Gives cx.program x) : t.Found x :=
  solved.asked starts ((injects.start _).mpr (Or.inl ⟨entry, member, rfl⟩)) gives

theorem found_late (starts : R.Starts heap handler) (solved : Solver.Solves cx Policy.callsFirst heap handler t)
    (member : x ∈ late) (valid : x.Valid cx.program) (reached : t.Found (.reached [] x.method)) :
    t.Found x.fact := by
  obtain ⟨id, ⟨c, known, frame⟩, reachable⟩ := reached
  obtain ⟨f, h, grown, ⟨⟨d, m⟩, before⟩, asked⟩ := solved.heeded starts reachable
  have same : t.elements.method? id = some (d, m) := grown.methods _ _ before
  rw [known] at same
  cases same
  -- the frame without elements has one handle only
  rw [frame.inj (Injection.frameOf_initial valid.context _)] at before
  exact asked _ ((injects.reach id f h _).mpr ⟨x, member, before, rfl⟩) _ (valid.asks _)

theorem closed_iff (declared : cx.program.Scoped) (owned : ∀ x ∈ early, x.Valid cx.program)
    (owned' : ∀ x ∈ late, x.Valid cx.program) (closed : Closed (Rule cx.program cx.selector heap.rules) holds)
    (given : ∀ x, Given cx.program entries early x → holds x) (given' : ∀ x ∈ late, holds x.fact)
    (reached : ∀ x ∈ early, holds (.reached [] x.method))
    (solved : Solver.Solves cx Policy.callsFirst heap handler t) :
    Closed (Rule cx.program cx.selector heap.rules) t.Found ↔
      ∀ x ∈ early, t.Applied cx.program cx.selector [] x.var ⟨[], x.obj⟩ := by
  have starts := injects.starts declared owned owned' closed given given' reached
  constructor
  · intro all x member
    exact Facts.applied_of_closed all (injects.found_early starts solved member (owned x member))
  · intro applied
    refine (solved.settles starts).closed (solved.rests starts) ?_
    rintro c v i ⟨x, member, same⟩ _
    cases same
    exact applied x member

end Injects

namespace Solver

variable {τ : Type v} {p : Program} {sel : Selector} {first : Handlers σ} {second : Handlers τ}
  {heap : Heap} {h : σ} {k : τ} {entries : List EntryPoint} {facts : List Injection}

/-- Facts that are injected when their methods are reached lead to all that follows from them. -/
theorem injected_late_iff (declared : p.Scoped) (owned : ∀ x ∈ facts, x.Valid p)
    (onReach : Injects ⟨p, sel, second⟩ heap k entries [] facts) {late : State τ}
    (solved : Solves ⟨p, sel, second⟩ Policy.callsFirst heap k late)
    (reached : ∀ x ∈ facts, late.Found (.reached [] x.method)) (x : Fact) :
    late.Found x ↔ Derivable (Rule p sel heap.rules) (Given p entries facts) x := by
  have derivable := Derivable.closed (Rule p sel heap.rules) (Given p entries facts)
  have given : ∀ x, Given p entries [] x →
      Derivable (Rule p sel heap.rules) (Given p entries facts) x := by
    rintro x (entry | ⟨y, member, _⟩)
    · exact Derivable.seed (Or.inl entry)
    · cases member
  have given' : ∀ x ∈ facts, Derivable (Rule p sel heap.rules) (Given p entries facts) x.fact :=
    fun x member => Derivable.seed (Or.inr ⟨x, member, rfl⟩)
  have starts := onReach.starts declared (List.forall_mem_nil _) owned derivable given given'
    (List.forall_mem_nil _)
  have closed := (onReach.closed_iff declared (List.forall_mem_nil _) owned derivable given given'
    (List.forall_mem_nil _) solved).mpr (List.forall_mem_nil _)
  constructor
  · exact (solved.rests starts).toLawful.inLaw
  · refine Derivable.least closed ?_
    rintro y (⟨entry, member, gives⟩ | ⟨z, member, rfl⟩)
    · exact onReach.found_entry starts solved member gives
    · exact onReach.found_late starts solved member (owned z member) (reached z member)

/-- Injecting facts at the start never finds more than injecting them when their methods are reached,
and it finds as much exactly if the loads, stores and calls on their variables are applied to them. -/
theorem injection_timing (declared : p.Scoped) (owned : ∀ x ∈ facts, x.Valid p)
    (atStart : Injects ⟨p, sel, first⟩ heap h entries facts [])
    (onReach : Injects ⟨p, sel, second⟩ heap k entries [] facts) {m n : Nat} {early : State σ}
    {late : State τ} (solved : solve ⟨p, sel, first⟩ m heap h = some early)
    (solved' : solve ⟨p, sel, second⟩ n heap k = some late)
    (reached : ∀ x ∈ facts, late.Found (.reached [] x.method)) :
    (∀ x, early.Found x → late.Found x) ∧
      ((∀ x, late.Found x → early.Found x) ↔
        ∀ x ∈ facts, early.Applied p sel [] x.var ⟨[], x.obj⟩) := by
  have follows := injected_late_iff declared owned onReach (solve_some solved') reached
  have derivable := Derivable.closed (Rule p sel heap.rules) (Given p entries facts)
  have given : ∀ x, Given p entries facts x →
      Derivable (Rule p sel heap.rules) (Given p entries facts) x := fun _ => Derivable.seed
  have places : ∀ x ∈ facts,
      Derivable (Rule p sel heap.rules) (Given p entries facts) (.reached [] x.method) :=
    fun x member => (follows _).mp (reached x member)
  have starts := atStart.starts declared owned (List.forall_mem_nil _) derivable given
    (List.forall_mem_nil _) places
  have result := solve_some solved
  have closed_iff := atStart.closed_iff declared owned (List.forall_mem_nil _) derivable given
    (List.forall_mem_nil _) places result
  have below : ∀ x, early.Found x → late.Found x := fun x found =>
    (follows x).mpr ((result.rests starts).toLawful.inLaw found)
  refine ⟨below, ?_, fun applied x found => ?_⟩
  · -- facts found early and late alike inherit closure from what is derivable
    intro above
    refine closed_iff.mp fun premises fact rule known => above fact ((follows fact).mpr ?_)
    exact derivable premises fact rule fun x member => (follows x).mp (below x (known x member))
  · -- once all is applied the early facts are closed too, and they hold everything given
    refine Derivable.least (closed_iff.mpr applied) ?_ ((follows x).mp found)
    rintro y (⟨entry, member, gives⟩ | ⟨z, member, rfl⟩)
    · exact atStart.found_entry starts result member gives
    · exact atStart.found_early starts result member (owned z member)

end Solver

namespace Facts

variable {f : Facts} {p : Program} {sel : Selector} {v : VarId}

/-- Nothing has to be applied to the objects of a variable that no statement is based on. -/
theorem applied_of_unused (unused : ∀ m < p.methods.size, ∀ stmt ∈ p.stmts m, stmt.base? ≠ some v) (c : Frame)
    (b : Item) : f.Applied p sel c v b := by
  have nowhere : ∀ site stmt, p.stmt? site = some stmt → stmt.base? ≠ some v := by
    intro site stmt known
    by_cases inside : site.method < p.methods.size
    · exact unused site.method inside stmt (List.mem_of_getElem? known)
    · simp [Program.stmt?, Program.stmts, Program.body?,
        Array.getElem?_eq_none (Nat.le_of_not_lt inside)] at known
  refine ⟨fun site stmt _ _ _ _ known on => ?_, fun site call _ _ known on => ?_⟩
  · exact absurd on (nowhere site stmt known)
  · exact absurd on (nowhere site (.invoke call) known)

def reaches (f : Facts) (m : MethodId) : Bool :=
  (f.elements.findMethod? ContextTable.emptyId m).any (f.calls.reachable.contains ·)

def holds (f : Facts) (v : VarId) (o : Obj) : Bool :=
  (f.varPts? ContextTable.emptyId v).any fun pts =>
    pts.toList.any fun id => f.describe? id == some (ContextTable.emptyId, o)

theorem found_of_reaches {m : MethodId} (reaches : f.reaches m = true) : f.Found (.reached [] m) := by
  obtain ⟨id, found, reachable⟩ := (Option.any_eq_true _ _).mp reaches
  exact ⟨id, ⟨_, Table.find?_eq_some_iff.mp found, f.frameOf_empty⟩, List.contains_iff_mem.mp reachable⟩

theorem found_iff_holds {o : Obj} : f.Found (.points (.var [] v) ⟨[], o⟩) ↔ f.holds v o = true := by
  simp only [holds, Option.any_eq_true, List.any_eq_true, beq_iff_eq]
  constructor
  · rintro ⟨q, id, ⟨ptr, known, cell⟩, ⟨c, described, frame⟩, pts, found, member⟩
    cases ptr with
    | var d w =>
      obtain ⟨frame', rfl⟩ := cell
      rw [frame'.inj f.frameOf_empty] at known
      rw [frame.inj f.frameOf_empty] at described
      exact ⟨pts, Option.bind_eq_some_iff.mpr ⟨q, Table.find?_eq_some_iff.mpr known, found⟩, id, member,
        described⟩
    | _ => exact cell.elim
  · rintro ⟨pts, found, id, member, described⟩
    obtain ⟨q, known, found⟩ := Option.bind_eq_some_iff.mp found
    exact ⟨q, id, ⟨_, Table.find?_eq_some_iff.mp known, f.frameOf_empty, rfl⟩,
      ⟨_, described, f.frameOf_empty⟩, pts, found, member⟩

end Facts

/-- Runs on boxes: an object may be given to the parameter of `put`, on which no statement is based. -/
def givenBoxes (early late : List Injection) : Setup Unit :=
  ⟨boxes, .limited .insensitive, Injection.handlers [{ method := 1 }] early late⟩

def toParameter : Injection := ⟨0, 0, 1, 0, ⟨.allocated ⟨1, 0⟩, .cls 1⟩⟩

theorem Solver.injection_timing_boxes :
    ∃ early late, solve (givenBoxes [toParameter] []) 100 (Heap.ofProgram boxes true) () = some early ∧
      solve (givenBoxes [] [toParameter]) 100 (Heap.ofProgram boxes true) () = some late ∧
      ∀ x, early.Found x ↔ late.Found x := by
  have ends : (solve (givenBoxes [toParameter] []) 100 (Heap.ofProgram boxes true) ()).isSome = true := by
    decide +kernel
  have ends' : (solve (givenBoxes [] [toParameter]) 100 (Heap.ofProgram boxes true) ()).any
      (·.reaches 0) = true := by decide +kernel
  obtain ⟨early, solved⟩ := Option.isSome_iff_exists.mp ends
  obtain ⟨late, solved', reaches⟩ := (Option.any_eq_true _ _).mp ends'
  have valid : ∀ x ∈ [toParameter], x.Valid boxes :=
    List.forall_mem_singleton.mpr ⟨by decide, by decide, by decide⟩
  obtain ⟨below, above⟩ := injection_timing (by decide) valid (Injection.injects_handlers _ _ _ _ _ _)
    (Injection.injects_handlers _ _ _ _ _ _) solved solved'
    (List.forall_mem_singleton.mpr (Facts.found_of_reaches reaches))
  have applied : early.Applied boxes (.limited .insensitive) [] toParameter.var ⟨[], toParameter.obj⟩ :=
    Facts.applied_of_unused (by decide) _ _
  exact ⟨early, late, solved, solved', fun x =>
    ⟨below x, above.mpr (List.forall_mem_singleton.mpr applied) x⟩⟩

/-- A box is filled, handed on, and read by a method of its own. -/
def relay : Program where
  classes := #[⟨"Object", none, [], false, false, true, [], []⟩,
    ⟨"Box", some 0, [], false, false, true, [0], [0]⟩,
    ⟨"Main", some 0, [], false, false, true, [1], []⟩]
  fields := #[⟨"content", 1, .cls 0, false⟩]
  methods := #[
    .routine 1 "read" "void read()" (some 0) [0, 1, 2] [.loadField 2 1 0],
    .routine 2 "main" "void main()" none [3, 4, 5]
      [.new 3 (.cls 1), .new 5 (.cls 0), .storeField 3 0 5, .copy 4 3,
        .invoke ⟨.virtual, ⟨1, "void read()"⟩, some 4, [], none⟩]]
  vars := #[⟨"this", .cls 1, 0⟩, ⟨"other", .cls 1, 0⟩, ⟨"content", .cls 0, 0⟩, ⟨"box", .cls 1, 1⟩,
    ⟨"same", .cls 1, 1⟩, ⟨"in", .cls 0, 1⟩]
  main := some 1

def givenRelay (early late : List Injection) : Setup Unit :=
  ⟨relay, .limited .insensitive, Injection.handlers [{ method := 1 }] early late⟩

/-- The box is given to a variable of `read` too. -/
def toReader : Injection := ⟨0, 0, 1, 0, ⟨.allocated ⟨1, 0⟩, .cls 1⟩⟩

/-- A box that is there before its reader is reached is never read: timing matters. -/
theorem Solver.injection_timing_differs :
    ∃ early late, solve (givenRelay [toReader] []) 100 (Heap.ofProgram relay true) () = some early ∧
      solve (givenRelay [] [toReader]) 100 (Heap.ofProgram relay true) () = some late ∧
      early.Found (.reached [] toReader.method) ∧ late.Found (.reached [] toReader.method) ∧
      early.Found toReader.fact ∧ late.Found toReader.fact ∧
      ∃ x, late.Found x ∧ ¬ early.Found x := by
  have ends : (solve (givenRelay [toReader] []) 100 (Heap.ofProgram relay true) ()).any (fun s =>
      s.reaches 0 && s.holds 1 toReader.obj && !s.holds 2 ⟨.allocated ⟨1, 1⟩, .cls 0⟩) = true := by
    decide +kernel
  have ends' : (solve (givenRelay [] [toReader]) 100 (Heap.ofProgram relay true) ()).any (fun s =>
      s.reaches 0 && s.holds 1 toReader.obj && s.holds 2 ⟨.allocated ⟨1, 1⟩, .cls 0⟩) = true := by
    decide +kernel
  obtain ⟨early, solved, test⟩ := (Option.any_eq_true _ _).mp ends
  obtain ⟨late, solved', test'⟩ := (Option.any_eq_true _ _).mp ends'
  simp only [Bool.and_eq_true, Bool.not_eq_true', ← Bool.not_eq_true] at test test'
  obtain ⟨⟨reaches, given⟩, lost⟩ := test
  obtain ⟨⟨reaches', given'⟩, there⟩ := test'
  exact ⟨early, late, solved, solved', Facts.found_of_reaches reaches, Facts.found_of_reaches reaches',
    Facts.found_iff_holds.mpr given, Facts.found_iff_holds.mpr given', _, Facts.found_iff_holds.mpr there,
    fun found => lost (Facts.found_iff_holds.mp found)⟩

end PointsTo
