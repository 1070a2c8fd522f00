import PointsTo.Proofs.Commands
import PointsTo.Proofs.Completeness

/-!
Runs that keep to a law. Every step keeps a lawful state lawful, whichever item it takes. If calls
are taken first, every step also pays for what it settles; so what is found when such a run is over
is closed under the inclusion rules.
-/
namespace PointsTo

variable {f : Facts} {p : Program} {sel : Selector} {keep : Obj → Prop}

theorem Facts.Permits.known {law : Law} {c : Command} (permitted : f.Permits p sel law c) : c.Known f := by
  have object : ∀ {r i}, f.ObjRefIs r i → r.Known f := by
    intro r i is
    cases r with
    | interned o =>
      obtain ⟨_, described, _⟩ := is
      exact ⟨_, described⟩
    | described c o => exact trivial
  have pointer : ∀ {r x}, f.PointerRefIs r x → r.Known f := by
    intro r x is
    cases r with
    | interned q => exact is.elim
    | var c v => exact trivial
    | static f => exact trivial
    | field base f => cases x <;> first | exact is.elim | exact object is.1
    | element array =>
      cases x with
      | element i => exact object (r := array) is
      | _ => exact is.elim
  cases c with
  | addPointsTo r objs =>
    obtain ⟨_, named, items, _⟩ := permitted
    refine ⟨pointer named, fun o member => ?_⟩
    obtain ⟨_, is, _⟩ := items o member
    exact object is
  | addEntryPoint entry => exact trivial
  | addFlow label source target =>
    obtain ⟨_, _, from_, to_, _⟩ := permitted
    exact ⟨pointer from_, pointer to_⟩
  | addCall kind context site callee receiver =>
    cases receiver with
    | none => exact nofun
    | some r =>
      obtain ⟨_, _, _, _, is, _⟩ := permitted
      rintro o ⟨⟩
      exact object is
  | addFilter r keep =>
    obtain ⟨_, ⟨_, named⟩, _⟩ := permitted
    exact pointer named
  | propagate pointer => exact permitted.elim

/-- Edges with the label let everything through. -/
def FlowLabel.isOpen : FlowLabel → Bool
  | plain kind => kind != .thisPassing
  | cast _ => false
  | other info => info.transfer.isNone

theorem FlowLabel.isOpen_plain {kind : FlowKind} (plain : kind ≠ .thisPassing) :
    (FlowLabel.plain kind).isOpen = true := by
  simp [isOpen, plain]

def Facts.Upholds (f : Facts) (keep : Obj → Prop) (x : Fact) : Prop :=
  f.Found x ∧ ∀ i ∈ x.held?, keep i.obj

theorem Facts.upholds_points {x : Cell} {i : Item} :
    f.Upholds keep (.points x i) ↔ f.Found (.points x i) ∧ keep i.obj := by
  simp [Upholds, Fact.held?]

theorem Facts.upholds_of_found {x : Fact} (found : f.Found x) (none : x.held? = none) : f.Upholds keep x :=
  ⟨found, fun _ held => by rw [none] at held; cases held⟩

theorem Facts.upholds_all (f : Facts) : f.Upholds (fun _ => True) = f.Found := by
  funext x
  simp [Upholds]

/-- A run may start from a heap: the handler's first answer keeps to the contract. -/
structure Regime.Opens {σ : Type u} {cx : Setup σ} (R : Regime cx) (heap : Heap) (handler : σ) :
    Prop where
  rules : heap.rules = R.rules
  good : R.Good { heap } (cx.handlers.react .started { heap } handler).state
  permitted : ∀ c ∈ (cx.handlers.react .started { heap } handler).commands,
    Facts.Permits { heap } cx.program cx.selector R.law c

structure Regime.Starts {σ : Type u} {cx : Setup σ} (R : Regime cx) (heap : Heap) (handler : σ) :
    Prop extends R.Opens heap handler where
  pure : ¬ R.law.meddles

namespace State

variable {σ : Type u} {cx : Setup σ} {R : Regime cx} {s : State σ} {c : Command} {rest : List Command}
  {heap : Heap} {handler : σ}

section

variable (lawful : s.Lawful R)

include lawful

theorem Lawful.taking {item : WorkItem} {worklist : Worklist} (taken : s.worklist.Takes item worklist) :
    (s.taking worklist).Lawful R := by
  refine lawful.grow ⟨Facts.Extends.refl _, fun _ member => member⟩ rfl (fun _ => rfl) rfl fun x has => Or.inl ?_
  cases x with
  | points q o => exact has.imp_right taken.pending_before
  | call e => exact has.imp_right taken.calls_before
  | _ => exact has

theorem Lawful.popping (queue : s.queue = c :: rest) : (s.popping rest).Lawful R := by
  refine lawful.grow ⟨Facts.Extends.refl _, fun _ member => member⟩ rfl (fun _ => rfl) rfl fun x has => Or.inl ?_
  cases x with
  | command d =>
    rw [Has, queue]
    exact List.mem_cons_of_mem c has
  | _ => exact has

theorem Lawful.permitted (queue : s.queue = c :: rest) : s.Permits cx.program cx.selector R.law c := by
  refine lawful.obeys (.command c) ?_
  rw [Has, queue]
  exact List.mem_cons_self

theorem Lawful.trimmed (pure : ¬ R.law.meddles) : s.trimmed = (s.toFacts, 0) := by
  unfold State.trimmed State.lateRemovals
  simp [lawful.late pure, Facts.removeAll]

/-- The contract still holds when late filters have taken their effect. -/
theorem Lawful.heard : let r := cx.handlers.phaseEnd s.trimmed.1 s.trimmed.2 s.handler
    R.Good s.trimmed.1 r.state ∧ (∀ c ∈ r.commands, s.trimmed.1.Permits cx.program cx.selector R.law c) ∧
      r.removals = [] := by
  have trim := lateRemovals_trims s
  have grown := trim.extends
  refine R.phaseEnd _ _ _ ⟨fun id c m known => ?_, fun q o held => ?_, fun q c v known => ?_,
    fun x c site known => ?_, fun e recorded => ?_⟩ (R.mono _ _ _ grown lawful.good)
  · rw [Elements.method?, trim.methods] at known
    obtain ⟨frame, named, inLaw⟩ := lawful.sane.methods id c m known
    exact ⟨frame, grown.frameOf named, inLaw⟩
  · obtain ⟨x, i, cell, item, inLaw⟩ := lawful.sane.held q o (trim.inside q o held)
    exact ⟨x, i, grown.cellOf cell, grown.itemOf item, inLaw⟩
  · rw [Elements.pointer?, trim.pointers] at known
    obtain ⟨⟨frame, named⟩, placed⟩ := lawful.sane.vars q c v known
    exact ⟨⟨frame, grown.frameOf named⟩, fun m mentions => grown.placed (placed m mentions)⟩
  · rw [Elements.site?, trim.sites] at known
    exact grown.placed (lawful.sane.sites x c site known)
  · rw [trim.calls] at recorded
    obtain ⟨c, site, d, m, named, inLaw⟩ := lawful.sane.calls e recorded
    exact ⟨c, site, d, m, grown.callOf named, inLaw⟩

/-- Objects that a late filter takes away count as delivered, and the handler has its say. -/
theorem Lawful.endPhase_keeps :
    s.Keeps (s.endPhase cx) ∧ (∀ q o, (s.endPhase cx).Holds q o → s.Holds q o) ∧
      (s.endPhase cx).calls = s.calls ∧
      (s.endPhase cx).elements.methods = s.elements.methods := by
  obtain ⟨created, facts⟩ := endPhase_facts s cx lawful.heard.2.2
  have trim := lateRemovals_trims s
  generalize s.trimmed.1 = g at facts trim
  have made : g.Extends { g with heap := g.heap.internAll created } :=
    { Facts.Extends.refl g with objects := Table.le_internAll _ _ }
  have grown : s.Extends (s.endPhase cx).toFacts := facts ▸ trim.extends.trans made
  have held : ∀ q o, (s.endPhase cx).Holds q o ↔ g.elements.Holds q o := by
    intro q o
    rw [Holds, facts]
  have refuses : ∀ {q o}, (∃ obj, s.obj? o = some obj ∧
      ∃ keep ∈ s.elements.filters q, keep obj = false) → (s.endPhase cx).Refuses q o := by
    rintro q o ⟨obj, known, refusal⟩
    obtain ⟨c, described⟩ := Facts.describe?_of_obj? known
    refine ⟨obj, Facts.obj?_of_describe? (grown.describe? described), ?_⟩
    rw [facts]
    dsimp only
    rw [trim.filters]
    exact refusal
  refine ⟨⟨⟨grown, fun _ member => member⟩, fun q o delivered => ?_,
    fun e there => there.imp_left (grown.calls e)⟩, fun q o there => trim.inside q o ((held q o).mp there), ?_, ?_⟩
  · rcases delivered with there | pending | refused
    · exact (trim.kept q o there).imp (held q o).mpr fun refused => Or.inr (refuses refused)
    · exact Or.inr (Or.inl pending)
    · exact Or.inr (Or.inr (refuses refused))
  · rw [facts]
    exact trim.calls
  · rw [facts]
    exact trim.methods

theorem Lawful.endPhase :
    (s.endPhase cx).Lawful R ∧ s.Proceeds R (s.endPhase cx) ∧
      (s.endPhase cx).worklist = s.worklist := by
  obtain ⟨good, permitted, nothing⟩ := lawful.heard
  obtain ⟨created, facts⟩ := endPhase_facts s cx nothing
  obtain ⟨keeps, inside, calls, methods⟩ := lawful.endPhase_keeps
  have trim := lateRemovals_trims s
  have made : s.trimmed.1.Extends (s.endPhase cx).toFacts := by
    rw [facts]
    exact { Facts.Extends.refl _ with objects := Table.le_internAll _ _ }
  have queue : (s.endPhase cx).queue =
      s.queue ++ (cx.handlers.phaseEnd s.trimmed.1 s.trimmed.2 s.handler).commands := rfl
  refine ⟨⟨fun x has => ?_, R.mono _ _ _ made good, fun pure q => ?_, fun _ => rfl,
    keeps.grown.rules.trans lawful.rules⟩,
    ⟨keeps, fun x settled => Or.inl ?_, fun id => Or.imp_left fun there => calls.symm ▸ there,
      fun id x known => Or.inl ?_, fun c member => queue ▸ List.mem_append_left _ member,
      fun id there => Or.inl (calls ▸ there)⟩, rfl⟩
  · have old : s.Has x → (s.endPhase cx).Obeys cx R.law x :=
      fun before => keeps.toGrows.obeys (lawful.obeys x before)
    cases x with
    | command c =>
      rw [Has, queue] at has
      rcases List.mem_append.mp has with before | new
      · exact old before
      · exact made.permits (permitted c new)
    | points q o => exact old (has.imp_left (inside q o))
    | call e => exact old (has.imp_left fun there => calls ▸ there)
    | reachable id | start id =>
      rw [Has, calls] at has
      exact old has
    | context c elems =>
      rw [Has, facts, trim.contexts] at has
      exact old has
    | edge id e | receiver id o =>
      rw [Has, facts, trim.flow] at has
      exact old has
    | obj o c id =>
      rw [Has, facts, Elements.obj?, trim.objs] at has
      exact old has
    | site y c place =>
      rw [Has, facts, Elements.site?, trim.sites] at has
      exact old has
    | method id c m =>
      rw [Has, Elements.method?, methods] at has
      exact old has
    | pointer q ptr =>
      rw [Has, facts, Elements.pointer?, trim.pointers] at has
      exact old has
  · rw [facts]
    exact (trim.filters q).trans (lawful.unfiltered pure q)
  · cases x with
    | held q o => exact inside q o settled
    | _ =>
      rw [Settled, calls] at settled
      exact settled
  · rw [Elements.method?, methods] at known
    exact known

theorem Lawful.endPhase_quiet (pure : ¬ R.law.meddles) : s.Quiet (s.endPhase cx) := by
  have trimmed := lawful.trimmed pure
  obtain ⟨created, facts⟩ := endPhase_facts s cx lawful.heard.2.2
  rw [trimmed] at facts
  have equal : s.endPhase cx =
      { s.endPhase cx with toFacts := { s.toFacts with heap := s.heap.internAll created } } := by
    rw [← facts]
  rw [equal]
  exact { Quiet.refl s with
    grown := { Facts.Extends.refl s.toFacts with objects := Table.le_internAll _ _ }
    refilter := (lawful.late pure).symm
    queue := fun _ known => List.mem_append_left _ known }

end

theorem blank_settles (good : R.Good { heap } handler) (rules : heap.rules = R.rules) :
    Settles R { heap, handler } where
  obeys := by
    intro x has
    cases x with
    | context c elems =>
      rcases Table.get?_intern_inv has with old | ⟨rfl, _⟩
      · cases old
      · exact ⟨[], rfl⟩
    | points q o =>
      rcases has with ⟨set, found, _⟩ | ⟨set, member, _⟩
      · simp [Elements.pts?] at found
      · cases member
    | call e => rcases has with impossible | impossible <;> cases impossible
    | edge id e => simp [Has, EdgeStore.edge?] at has
    | receiver id o => simp [Has, EdgeStore.admits] at has
    | _ => cases has
  good := good
  unfiltered := fun _ q => by simp [Elements.filters]
  late := fun _ => rfl
  rules := rules
  paid := by
    intro x settled
    cases x with
    | held q o =>
      obtain ⟨set, found, _⟩ := settled
      simp [Elements.pts?] at found
    | _ => cases settled
  awaited := fun id x known => by cases known

theorem start_settles (opens : R.Opens heap handler) : (Solver.start cx heap handler).Settles R := by
  have blank := blank_settles opens.good opens.rules
  have quiet : Quiet { heap, handler := (cx.handlers.react .started { heap } handler).state }
      (Solver.start cx heap handler) :=
    { Quiet.refl _ with
      grown := { Facts.Extends.refl _ with objects := Table.le_internAll _ _ }
      queue := fun _ known => List.mem_append_left _ known }
  refine blank.proceeds (blank.toLawful.quiet quiet rfl fun x has => ?_) quiet.proceeds
  cases x with
  | command c => exact Or.inr (quiet.grown.permits (opens.permitted c has))
  | _ => exact Or.inl has

theorem Settles.registered (settles : s.Settles R) (none : s.worklist.calls = []) {c : ContextId}
    {m : MethodId} (interned : s.Interned c m) : m ∈ s.seen := by
  obtain ⟨id, known⟩ := interned
  obtain ⟨frame, named, _⟩ := settles.obeys (.method id c m) known
  rcases settles.awaited id _ known with reachable | ⟨e, waiting, _⟩
  · exact (settles.paid (.reached id) reachable frame m ⟨c, known, named⟩).1
  · rw [none] at waiting
    cases waiting

end State

namespace Solver

open State

variable {σ : Type u} {cx : Setup σ} {R : Regime cx} {policy : Policy} {s t : State σ} {heap : Heap} {handler : σ}

theorem Step.lawful (step : Step cx policy s t) (lawful : s.Lawful R) : t.Lawful R ∧ s.Keeps t := by
  cases step with
  | command queue =>
    obtain ⟨lawful', proceeds, _⟩ := (lawful.popping queue).apply (lawful.permitted queue)
    exact ⟨lawful', ⟨⟨proceeds.grown, proceeds.seen⟩, proceeds.points, proceeds.calls⟩⟩
  | call queue allowed taken =>
    rename_i e worklist
    obtain ⟨waiting, others⟩ := taken.calls_call
    obtain ⟨lawful', proceeds, recorded⟩ :=
      (lawful.taking taken).processCall (lawful.obeys (.call e) (Or.inr waiting))
    refine ⟨lawful', ⟨⟨proceeds.grown, proceeds.seen⟩, fun q o there => ?_, fun d there => ?_⟩⟩
    · exact proceeds.points q o (there.imp_right (Or.imp_left taken.pending_call))
    · -- of the calls that waited, `e` alone has left the worklist, and it is recorded
      rcases there with before | before
      · exact proceeds.calls d (Or.inl before)
      · rcases others d before with still | rfl
        · exact proceeds.calls d (Or.inr still)
        · exact Or.inl recorded
  | points queue allowed taken =>
    rename_i q set worklist
    obtain ⟨lawful', keeps, delivered, _⟩ := (lawful.taking taken).processPoints fun o member =>
      lawful.obeys (.points q o) (Or.inr (taken.pending_set member))
    refine ⟨lawful', ⟨⟨keeps.grown, keeps.seen⟩, fun r o there => ?_, fun d there => ?_⟩⟩
    · -- the objects that were taken are delivered now
      rcases there with before | pending | refused
      · exact keeps.points r o (Or.inl before)
      · rcases taken.pending_points pending with still | ⟨rfl, member⟩
        · exact keeps.points r o (Or.inr (Or.inl still))
        · exact delivered o member
      · exact keeps.points r o (Or.inr (Or.inr refused))
    · exact keeps.calls d (there.imp_right fun waiting => taken.calls_points ▸ waiting)
  | phase queue idle more =>
    obtain ⟨lawful', proceeds, _⟩ := lawful.endPhase
    exact ⟨lawful', proceeds.toKeeps⟩

/-- A step takes something off the queue or the worklist and proceeds from there; with calls taken
first, no method loses the call that it waits for. -/
theorem Step.proceeds (step : Step cx Policy.callsFirst s t) (settles : s.Settles R) :
    ∃ u : State σ, u.toFacts = s.toFacts ∧ u.Proceeds R t ∧ ∀ id, s.Awaits id → t.Awaits id := by
  obtain ⟨lawful', keeps⟩ := step.lawful settles.toLawful
  cases step with
  | command queue =>
    rename_i c rest
    obtain ⟨_, proceeds, _⟩ :=
      (settles.toLawful.popping queue).apply (settles.toLawful.permitted queue)
    exact ⟨s.popping rest, rfl, proceeds, fun id awaited => proceeds.awaits id awaited⟩
  | call queue allowed taken =>
    rename_i e worklist
    obtain ⟨waiting, others⟩ := taken.calls_call
    obtain ⟨_, proceeds, recorded⟩ :=
      (settles.toLawful.taking taken).processCall (settles.obeys (.call e) (Or.inr waiting))
    refine ⟨s.taking worklist, rfl, proceeds, fun id awaited => ?_⟩
    rcases awaited with reachable | ⟨d, there, rfl⟩
    · exact proceeds.awaits id (Or.inl reachable)
    · rcases others d there with still | rfl
      · exact proceeds.awaits d.callee (Or.inr ⟨d, still, rfl⟩)
      · -- the call that was taken is recorded now, and its callee reached
        have paid : State.Paid R ((s.taking worklist).processCall cx d) (.recorded d) := by
          rcases proceeds.settled (.recorded d) recorded with before | paid
          · have older : s.Settled (.recorded d) := before
            exact keeps.paid settles.toLawful older (settles.paid _ older)
          · exact paid
        obtain ⟨c, site, f, m, named, _⟩ := lawful'.obeys (.call d) (Or.inl recorded)
        obtain ⟨id', method, reachable⟩ := (paid c site f m named).reached
        rw [named.2.inj method]
        exact Or.inl reachable
  | points queue allowed taken =>
    rename_i q set worklist
    obtain ⟨_, _, _, pays⟩ := (settles.toLawful.taking taken).processPoints fun o member =>
      settles.obeys (.points q o) (Or.inr (taken.pending_set member))
    -- no call waits, so whatever has a variable here is registered already
    have proceeds := pays fun c m interned => settles.registered allowed interned
    refine ⟨s.taking worklist, rfl, proceeds, fun id awaited => proceeds.awaits id ?_⟩
    exact awaited.imp_right fun ⟨e, waiting, same⟩ => ⟨e, taken.calls_points.symm ▸ waiting, same⟩
  | phase queue idle more =>
    have proceeds := settles.toLawful.endPhase.2.1
    exact ⟨s, rfl, proceeds, proceeds.awaits⟩

theorem Step.settles (step : Step cx Policy.callsFirst s t) (settles : s.Settles R) : t.Settles R := by
  obtain ⟨lawful', keeps⟩ := step.lawful settles.toLawful
  obtain ⟨u, same, proceeds, awaits⟩ := step.proceeds settles
  refine settles.keeps lawful' keeps (fun x settled => ?_) fun id x known => ?_
  · exact (proceeds.settled x settled).imp_left (settled_of_same same)
  · rcases proceeds.fresh id x known with before | awaited
    · exact awaits id (settles.awaited id x (same ▸ before))
    · exact awaited

theorem Step.flows (step : Step cx policy s t) (lawful : s.Lawful R) (flows : s.Flows cx.program) :
    t.Flows cx.program := by
  refine (step.delivers (fun c member => ?_) lawful.heard.2.2 lawful.handles flows).2
  exact (lawful.obeys (.command c) member).known

theorem Runs.lawful (run : Runs cx policy (start cx heap handler) s) (opens : R.Opens heap handler) :
    s.Lawful R ∧ s.Flows cx.program := by
  refine run.induct (fun s => s.Lawful R ∧ s.Flows cx.program)
    ⟨(start_settles opens).toLawful, start_flows cx heap handler⟩ ?_
  rintro s t ⟨lawful, flows⟩ step
  exact ⟨(step.lawful lawful).1, step.flows lawful flows⟩

theorem Runs.settles (run : Runs cx Policy.callsFirst (start cx heap handler) s) (opens : R.Opens heap handler) :
    s.Settles R :=
  run.induct (State.Settles R) (start_settles opens) fun _ _ settles step => step.settles settles

end Solver

namespace State

variable {σ : Type u} {cx : Setup σ} {R : Regime cx} {s : State σ} {kind : CallKind} {c d : Frame}
  {site : StmtRef} {m : MethodId} {x : Fact} {stmt : Stmt} {y : Cell}

/-- A lawful state in which there is nothing left to do. -/
structure Halts (R : Regime cx) (s : State σ) : Prop extends s.Lawful R where
  flows : s.Flows cx.program
  queue : s.queue = []
  idle : s.worklist.isEmpty = true

/-- Nothing is left to do, and filters spare what is to be kept, which is at least all but taint. -/
structure Sifts (R : Regime cx) (keep : Obj → Prop) (s : State σ) : Prop extends s.Halts R where
  clean : ∀ o : Obj, o.isTaint = false → keep o
  spares : ∀ q, ∀ test ∈ s.elements.filters q, ∀ o, keep o → test o = true

/-- Nothing is left to do, and nothing was kept away. -/
structure Rests (R : Regime cx) (s : State σ) : Prop extends s.Halts R where
  pure : ¬ R.law.meddles

theorem Rests.sifts (rests : s.Rests R) : s.Sifts R fun _ => True where
  toHalts := rests.toHalts
  clean := fun _ _ => trivial
  spares := by
    intro q test attached
    rw [rests.unfiltered rests.pure] at attached
    cases attached

theorem Halts.calls (halts : s.Halts R) : s.worklist.calls = [] := WorkQueue.calls_of_isEmpty halts.idle

theorem Halts.called (halts : s.Halts R) (due : s.Due (.called kind c site d m)) :
    s.Found (.called kind c site d m) := by
  obtain ⟨e, same, named, recorded | waiting⟩ := due
  · exact ⟨e, recorded, same, named⟩
  · rw [halts.calls] at waiting
    cases waiting

theorem Halts.delivered (halts : s.Halts R) {q : PointerId} {o : CsObjId} (delivered : s.Delivered q o) :
    s.Holds q o ∨ s.Refuses q o := by
  rcases delivered with there | pending | refused
  · exact Or.inl there
  · exact absurd pending (WorkQueue.not_pending halts.idle)
  · exact Or.inr refused

section Sifts

variable {keep : Obj → Prop} (sifts : s.Sifts R keep)
include sifts

theorem Sifts.held {q : PointerId} {o : CsObjId} {i : Item} (item : s.ItemOf o i) (kept : keep i.obj)
    (delivered : s.Delivered q o) : s.Holds q o := by
  rcases sifts.toHalts.delivered delivered with there | ⟨obj, known, test, attached, refuses⟩
  · exact there
  · obtain ⟨_, described, _⟩ := item
    cases (Facts.obj?_of_describe? described).symm.trans known
    rw [sifts.spares q test attached _ kept] at refuses
    cases refuses

theorem Sifts.found {x : Fact} (due : s.Due x) (kept : ∀ i ∈ x.held?, keep i.obj) : s.Found x := by
  cases x with
  | points x i =>
    obtain ⟨q, o, cell, item, delivered⟩ := due
    exact ⟨q, o, cell, item, sifts.held item (kept i rfl) delivered⟩
  | reached c m => exact due
  | called kind c site d m => exact sifts.toHalts.called due
  | admitted x y i => exact due

end Sifts

theorem Rests.found (rests : s.Rests R) (due : s.Due x) : s.Found x :=
  rests.sifts.found due fun _ _ => trivial

theorem Lawful.spelled (lawful : s.Lawful R) : s.Spelled where
  held := by
    intro q o held
    obtain ⟨x, i, cell, item, _⟩ := lawful.obeys (.points q o) (Or.inl held)
    exact ⟨x, i, cell, item⟩
  reachable := by
    intro id reachable
    obtain ⟨context, m, known⟩ := lawful.obeys (.reachable id) reachable
    obtain ⟨c, named, _⟩ := lawful.obeys (.method id context m) known
    exact ⟨c, m, context, known, named⟩
  calls := by
    intro e recorded
    obtain ⟨c, site, d, m, named, _⟩ := lawful.obeys (.call e) (Or.inl recorded)
    exact ⟨c, site, d, m, named⟩

theorem Lawful.inLaw (lawful : s.Lawful R) (found : s.Found x) : R.law.holds x := by
  cases x with
  | points x i =>
    obtain ⟨q, o, cell, item, held⟩ := found
    obtain ⟨x', i', cell', item', inLaw, _⟩ := lawful.obeys (.points q o) (Or.inl held)
    rw [cell.unique cell', item.unique item']
    exact inLaw
  | reached c m =>
    obtain ⟨id, ⟨context, known, named⟩, _⟩ := found
    obtain ⟨c', named', inLaw⟩ := lawful.obeys (.method id context m) known
    rw [named.unique named']
    exact inLaw
  | called kind c site d m =>
    obtain ⟨e, recorded, rfl, named⟩ := found
    obtain ⟨c', site', d', m', named', inLaw⟩ := lawful.obeys (.call e) (Or.inl recorded)
    obtain ⟨rfl, rfl⟩ := named.1.unique named'.1
    obtain ⟨rfl, rfl⟩ := named.2.unique named'.2
    exact inLaw
  | admitted x y i =>
    obtain ⟨id, e, o, edge, _, base, this, item, admitted⟩ := found
    obtain ⟨_, x', y', i', edge', _, base', this', item', inLaw⟩ :=
      lawful.obeys (.receiver id o) admitted
    rw [edge] at edge'
    cases edge'
    rw [base.unique base', this.unique this', item.unique item']
    exact inLaw

section Sifts

variable {keep : Obj → Prop} (sifts : s.Sifts R keep) {x y : Cell} {i : Item}
include sifts

theorem Sifts.crossed {id : EdgeId} {e : FlowEdge} (edge : s.flow.edge? id = some e)
    (source : s.CellOf e.source x) (target : s.CellOf e.target y) (found : s.Found (.points x i))
    (kept : keep i.obj) (crosses : ∀ o c, s.ItemOf o i → s.describe? o = some (c, i.obj) →
      s.crossing? cx.program id e.label o = some (c, i.obj)) : s.Found (.points y i) := by
  obtain ⟨q, o, cell, item, held⟩ := found
  obtain rfl := cell.inj source
  have item' := item
  obtain ⟨c, described, _⟩ := item'
  obtain ⟨o', described', delivered⟩ :=
    sifts.flows id e o edge held _ (crosses o c item described)
  -- it crosses as what it is, so it is the same object that was delivered
  obtain rfl := Facts.describe?_inj described described'
  exact ⟨e.target, o, target, item, sifts.held item kept delivered⟩

theorem Sifts.linked {label : FlowLabel} (linked : s.Linked label x y) (opens : label.isOpen = true)
    (found : s.Found (.points x i)) (kept : keep i.obj) : s.Found (.points y i) := by
  obtain ⟨id, e, edge, rfl, source, target⟩ := linked
  refine sifts.crossed edge source target found kept fun o c _ described => ?_
  revert opens
  cases e.label with
  | plain kind =>
    unfold Facts.crossing?
    rw [described]
    cases kind <;> first | exact fun _ => rfl | exact nofun
  | cast ty => exact nofun
  | other info => exact fun opens => by simp [Facts.crossing?, described, Option.isNone_iff_eq_none.mp opens]

theorem Sifts.cast {ty : Ty} (linked : s.Linked (.cast ty) x y) (found : s.Found (.points x i))
    (kept : keep i.obj) (fits : cx.program.isSubtype i.obj.ty ty = true) : s.Found (.points y i) := by
  obtain ⟨id, e, edge, label, source, target⟩ := linked
  refine sifts.crossed edge source target found kept fun o c _ described => ?_
  rw [label]
  simp [Facts.crossing?, described, fits]

theorem Sifts.passed (admitted : s.Found (.admitted x y i)) (found : s.Found (.points x i)) (kept : keep i.obj) :
    s.Found (.points y i) := by
  obtain ⟨id, e, o, edge, label, source, target, item, admits⟩ := admitted
  refine sifts.crossed edge source target found kept fun o' c item' described => ?_
  obtain rfl := item.inj item'
  simp [Facts.crossing?, label, described, admits]

end Sifts

theorem Settles.stmtDone (settles : s.Settles R) (found : s.Found (.reached c site.method))
    (known : cx.program.stmt? site = some stmt) : s.StmtDone cx R.rules c site stmt := by
  obtain ⟨id, named, reachable⟩ := found
  exact (settles.paid (.reached id) reachable c site.method named).2 site stmt rfl known

/-- What is found at the base of a statement has been used there, unless it was injected. -/
theorem Settles.itemDone (settles : s.Settles R) {v : VarId} {i : Item} (found : s.Found (.points (.var c v) i))
    (known : cx.program.stmt? site = some stmt) (on : stmt.base? = some v) :
    R.law.injected (.points (.var c v) i) ∨ s.ItemDone cx c site stmt v i := by
  obtain ⟨q, o, cell, item, held⟩ := found
  exact (settles.paid (.held q o) held c v i cell item).imp_right fun done => done site stmt known on

theorem Settles.callDone (settles : s.Settles R) (found : s.Found (.called kind c site d m)) :
    s.CallDone cx kind c site d m := by
  obtain ⟨e, recorded, rfl, named⟩ := found
  exact settles.paid (.recorded e) recorded c site d m named

theorem linked_of_stmtDone {rules : HeapRules} {x : Cell} (done : s.StmtDone cx rules c site stmt)
    (moves : stmt.moves? c = some (x, y)) : s.Linked (.plain stmt.flowKind) x y := by
  cases stmt <;> first | exact done x y moves | cases moves

theorem Settles.linked (settles : s.Settles R) (pure : ∀ x, ¬ R.law.injected x) {holds : Fact → Prop}
    (found : ∀ x, holds x → s.Found x) {label : FlowLabel} {x : Cell}
    (rule : FlowRule cx.program holds label x y) :
    s.Linked label x y := by
  cases rule with
  | move known moves reached => exact linked_of_stmtDone (settles.stmtDone (found _ reached) known) moves
  | cast stmt reached => exact settles.stmtDone (found _ reached) stmt
  | access known on accesses _ based =>
    have done := (settles.itemDone (found _ based) known on).resolve_left (pure _)
    exact done.access _ _ accesses
  | pass admitted =>
    obtain ⟨id, e, o, edge, label, source, target, _⟩ := found _ admitted
    exact ⟨id, e, edge, label, source, target⟩
  | param passes calls code pair called =>
    exact (settles.callDone (found _ called)).params passes _ _ _ _ calls code pair
  | ret passes calls code answer returns called =>
    exact (settles.callDone (found _ called)).results passes _ _ _ _ calls code answer returns

theorem Lawful.flows_of_edge (lawful : s.Lawful R) {id : EdgeId} {e : FlowEdge}
    (edge : s.flow.edge? id = some e) : ∃ x y, s.CellOf e.source x ∧ s.CellOf e.target y ∧
      R.law.Flows cx.program e.label x y := by
  obtain ⟨x, y, source, target, _, _, flows⟩ := lawful.obeys (.edge id e) edge
  exact ⟨x, y, source, target, flows⟩

end State

/-- The loads, stores and calls on a variable have been applied to an item. -/
structure Facts.Applied (f : Facts) (p : Program) (sel : Selector) (c : Frame) (v : VarId) (b : Item) :
    Prop where
  access : ∀ site stmt x y i, f.Found (.reached c site.method) → p.stmt? site = some stmt →
    stmt.base? = some v → stmt.accesses? c b = some (x, y) → f.Found (.points x i) →
    f.Found (.points y i)
  call : ∀ site call m, f.Found (.reached c site.method) → p.stmt? site = some (.invoke call) →
    call.base = some v → b.obj.ty ≠ .null → p.callee? call b.obj.ty = some m →
    f.Found (.called (.ofInvoke call.kind) c site (sel.calleeFrame p c site (some b) m) m) ∧
      ∀ this, p.this? m = some this →
        f.Found (.admitted (.var c v) (.var (sel.calleeFrame p c site (some b) m) this) b)

theorem Facts.applied_of_closed {rules : HeapRules} (closed : Closed (Rule p sel rules) f.Found) {c : Frame}
    {v : VarId} {b : Item} (found : f.Found (.points (.var c v) b)) : f.Applied p sel c v b where
  access := fun _ _ _ _ _ reached known on accesses there =>
    closed.three (Rule.access known on accesses) reached found there
  call := fun _ _ _ reached known on real resolved =>
    ⟨closed.two (Rule.callOn known on real resolved) reached found,
      fun _ receives => closed.two (Rule.admits known on real resolved receives) reached found⟩

namespace State

variable {σ : Type u} {cx : Setup σ} {R : Regime cx} {s : State σ}

/-- Where a settled run has come to its end, the facts about what is to be kept are closed under the
inclusion rules, if all has been applied to what was injected. -/
theorem Settles.closed_kept (settles : s.Settles R) {keep : Obj → Prop} (sifts : s.Sifts R keep)
    (applied : ∀ c v i, R.law.injected (.points (.var c v) i) → s.Found (.points (.var c v) i) →
      s.Applied cx.program cx.selector c v i) :
    Closed (Rule cx.program cx.selector R.rules) (s.Upholds keep) := by
  intro premises fact rule known
  -- one fact of the premises, and the two or three of them
  have head : ∀ {a l}, premises = a :: l → s.Upholds keep a := fun same => known _ (by simp [same])
  have second : ∀ {a b l}, premises = a :: b :: l → s.Upholds keep b :=
    fun same => known _ (by simp [same])
  have third : ∀ {a b c l}, premises = a :: b :: c :: l → s.Upholds keep c :=
    fun same => known _ (by simp [same])
  -- what a rule concludes at once is due, and what flows crosses an edge that is there
  have due : ∀ {x}, s.Due x → (∀ i ∈ x.held?, keep i.obj) → s.Upholds keep x :=
    fun due kept => ⟨sifts.found due kept, kept⟩
  have links : ∀ {x y i label}, s.Linked label x y → label.isOpen = true → s.Upholds keep (.points x i) →
      s.Upholds keep (.points y i) :=
    fun linked opens there => ⟨sifts.linked linked opens there.1 (there.2 _ rfl), there.2⟩
  cases rule with
  | new stmt =>
    refine due (settles.stmtDone (head rfl).1 stmt) ?_
    rintro _ ⟨⟩
    exact sifts.clean _ (HeapRules.allocated_clean _ _ _)
  | literal stmt constant =>
    refine due (settles.stmtDone (head rfl).1 stmt constant) ?_
    rintro _ ⟨⟩
    exact sifts.clean _ (HeapRules.constant_clean _ _)
  | move stmt moves =>
    exact links (linked_of_stmtDone (settles.stmtDone (head rfl).1 stmt) moves)
      (FlowLabel.isOpen_plain (Stmt.flowKind_plain _)) (second rfl)
  | cast stmt fits =>
    have there := second rfl
    exact ⟨sifts.cast (settles.stmtDone (head rfl).1 stmt) there.1 (there.2 _ rfl) fits, there.2⟩
  | access stmt on accesses =>
    rcases settles.itemDone (second rfl).1 stmt on with injected | done
    · exact ⟨(applied _ _ _ injected (second rfl).1).access _ _ _ _ _ (head rfl).1 stmt on accesses
        (third rfl).1, (third rfl).2⟩
    · exact links (done.access _ _ accesses) (FlowLabel.isOpen_plain (Stmt.flowKind_plain _)) (third rfl)
  | callStatic stmt static resolved =>
    exact due (settles.stmtDone (head rfl).1 stmt static _ resolved) nofun
  | callOn stmt on real resolved =>
    rcases settles.itemDone (second rfl).1 stmt on with injected | done
    · exact ⟨((applied _ _ _ injected (second rfl).1).call _ _ _ (head rfl).1 stmt on real resolved).1, nofun⟩
    · exact due (done.call _ _ rfl real resolved) nofun
  | admits stmt on real resolved receives =>
    rcases settles.itemDone (second rfl).1 stmt on with injected | done
    · exact ⟨((applied _ _ _ injected (second rfl).1).call _ _ _ (head rfl).1 stmt on real resolved).2 _
        receives, nofun⟩
    · exact due (done.admits _ _ _ rfl real resolved receives) nofun
  | pass =>
    have there := second rfl
    exact ⟨sifts.passed (head rfl).1 there.1 (there.2 _ rfl), there.2⟩
  | reach => exact due (settles.callDone (head rfl).1).reached nofun
  | param passes calls code pair =>
    exact links ((settles.callDone (head rfl).1).params passes _ _ _ _ calls code pair) rfl (second rfl)
  | ret passes calls code answer returns =>
    exact links ((settles.callDone (head rfl).1).results passes _ _ _ _ calls code answer returns) rfl
      (second rfl)

theorem Settles.closed (settles : s.Settles R) (rests : s.Rests R)
    (applied : ∀ c v i, R.law.injected (.points (.var c v) i) → s.Found (.points (.var c v) i) →
      s.Applied cx.program cx.selector c v i) :
    Closed (Rule cx.program cx.selector R.rules) s.Found := by
  rw [← s.upholds_all]
  exact settles.closed_kept rests.sifts applied

end State

namespace Solver

open State

variable {σ : Type u} {cx : Setup σ} {R : Regime cx} {policy : Policy} {s t : State σ} {heap : Heap} {handler : σ}
  {c : Command}

theorem Finishes.halts (finishes : Finishes cx s t) (lawful : s.Lawful R) (flows : s.Flows cx.program) :
    t.Halts R := by
  obtain ⟨lawful', _, same⟩ := lawful.endPhase
  have delivered := endPhase_delivers (p := cx.program) s cx lawful.heard.2.2
  have last := finishes.quiet
  rw [finishes.last] at last ⊢
  exact ⟨lawful', delivered.flows lawful.handles flows, last, same ▸ finishes.idle⟩

theorem Solves.halts (solved : Solves cx policy heap handler t) (opens : R.Opens heap handler) : t.Halts R := by
  obtain ⟨s, run, finishes⟩ := solved
  obtain ⟨lawful, flows⟩ := run.lawful opens
  exact finishes.halts lawful flows

theorem Solves.rests (solved : Solves cx policy heap handler t) (starts : R.Starts heap handler) : t.Rests R :=
  ⟨solved.halts starts.toOpens, starts.pure⟩

theorem Solves.settles_of_opens (solved : Solves cx Policy.callsFirst heap handler t)
    (opens : R.Opens heap handler) : t.Settles R := by
  obtain ⟨s, run, finishes⟩ := solved
  have settles := run.settles opens
  obtain ⟨lawful', proceeds, _⟩ := settles.toLawful.endPhase
  rw [finishes.last]
  exact settles.proceeds lawful' proceeds

theorem Solves.settles (solved : Solves cx Policy.callsFirst heap handler t) (starts : R.Starts heap handler) :
    t.Settles R :=
  solved.settles_of_opens starts.toOpens

theorem Step.carried (step : Step cx policy s t) (lawful : s.Lawful R) (queued : c ∈ s.queue) :
    c ∈ t.queue ∨ ∃ rest, s.queue = c :: rest ∧ t = (s.popping rest).apply cx c := by
  cases step with
  | command queue =>
    obtain ⟨_, proceeds, _⟩ := (lawful.popping queue).apply (lawful.permitted queue)
    rw [queue] at queued
    rcases List.mem_cons.mp queued with rfl | later
    · exact Or.inr ⟨_, queue, rfl⟩
    · exact Or.inl (proceeds.queue c later)
  | call queue | points queue | phase queue => rw [queue] at queued; cases queued

theorem Step.queued (step : Step cx policy s t) (lawful : s.Lawful R) (queued : c ∈ s.queue) :
    c ∈ t.queue ∨ ∀ x, s.Asks cx.program c x → t.Due x := by
  rcases step.carried lawful queued with waits | ⟨rest, queue, rfl⟩
  · exact Or.inl waits
  · exact Or.inr ((lawful.popping queue).apply (lawful.permitted queue)).2.2

theorem Solves.asked (solved : Solves cx policy heap handler t) (starts : R.Starts heap handler) {x : Fact}
    (given : c ∈ (cx.handlers.react .started { heap } handler).commands)
    (asked : (start cx heap handler).Asks cx.program c x) : t.Found x := by
  have rests := solved.rests starts
  obtain ⟨s, run, finishes⟩ := solved
  -- along the run the command stays in the queue until what it asks for is due
  obtain ⟨lawful, _, there⟩ := run.induct
    (fun s => s.Lawful R ∧ (start cx heap handler).Extends s.toFacts ∧ (c ∈ s.queue ∨ s.Due x))
    ⟨(start_settles starts.toOpens).toLawful, Facts.Extends.refl _, Or.inl (List.mem_append_right _ given)⟩ <| by
      rintro s t ⟨lawful, grown, there⟩ step
      obtain ⟨lawful', keeps⟩ := step.lawful lawful
      refine ⟨lawful', grown.trans keeps.grown, ?_⟩
      rcases there with queued | due
      · exact (step.queued lawful queued).imp_right fun all => all x (grown.asks asked)
      · exact Or.inr (keeps.due due)
  rcases there with queued | due
  · rw [finishes.queue] at queued
    cases queued
  · have proceeds := lawful.endPhase.2.1
    rw [← finishes.last] at proceeds
    exact rests.found (proceeds.due due)

end Solver

end PointsTo
