import PointsTo.Proofs.Sanitizing

/-!
Sources are complete. Taint is let in when a call is found and when a method is reached in a context.
What is let in inside the objects of a variable comes into each: those already held get it at once,
later ones when they come.
-/
namespace PointsTo

variable {t : State Chain}

namespace Facts

variable {f : Facts} {ptr : Pointer} {x : Cell} {obj : Obj}

def At (f : Facts) (ptr : Pointer) (o : CsObjId) : Prop :=
  ∃ q, f.elements.pointer? q = some ptr ∧ f.elements.Holds q o

def Has (f : Facts) (ptr : Pointer) (obj : Obj) : Prop :=
  ∃ o, f.describe? o = some (ContextTable.emptyId, obj) ∧ f.At ptr o

/-- An object is at an index of a variable: it is held by the variable itself, or inside every object that
the variable holds. -/
def Fills (f : Facts) (c : ContextId) (v : VarId) (obj : Obj) : IndexKind → Prop
  | .var => f.Has (.var c v) obj
  | .array => ∀ o, f.At (.var c v) o → f.Has (.element o) obj
  | .field g => ∀ o, f.At (.var c v) o → f.Has (.field o g) obj

theorem has_of_found (is : f.PointerIs ptr x) (found : f.Found (.points x ⟨[], obj⟩)) : f.Has ptr obj := by
  obtain ⟨q, o, ⟨ptr', known, is'⟩, ⟨c, described, named⟩, held⟩ := found
  obtain rfl := is.inj is'
  obtain rfl := named.inj f.frameOf_empty
  exact ⟨o, described, q, known, held⟩

end Facts

/-- Taint of a point and a type is at an index of a variable, unless the variable is a sanitized
parameter. -/
def TaintConfig.LetsIn (config : TaintConfig) (p : Program) (f : Facts) (marks : Marks) (a : SourcePoint)
    (ty : Ty) (c : ContextId) (v : VarId) (kind : IndexKind) : Prop :=
  ∃ obj, marks.Names a ty obj ∧ (f.Fills c v obj kind ∨ kind = .var ∧ config.Sanitizes p v)

namespace Taint

variable {σ : Type u} {p : Program} {first : Taint}

theorem after_snoc (p : Program) (s : Taint) (past : List (Moment σ)) (x : Moment σ) :
    s.after p (past ++ [x]) = ((s.after p past).react p x.facts x.event).state := replay_snoc _ _ _ _

theorem after_later (p : Program) (s : Taint) (past rest : List (Moment σ)) :
    (s.after p past).marks.points ≤ (s.after p (past ++ rest)).marks.points ∧
      (∀ m ∈ (s.after p past).sources.pending, m ∈ (s.after p (past ++ rest)).sources.pending) ∧
      ∀ x ∈ (s.after p past).transfers.pending, x ∈ (s.after p (past ++ rest)).transfers.pending := by
  induction rest using List.reverseRecOn with
  | nil =>
    rw [List.append_nil]
    exact ⟨Table.le_refl _, fun _ => id, fun _ => id⟩
  | append_singleton rest x ih =>
    have acts := react_acts p x.facts (s.after p (past ++ rest)) x.event
    rw [← List.append_assoc, after_snoc]
    exact ⟨Table.le_trans ih.1 acts.grown, fun m waits => acts.kept m (ih.2.1 m waits),
      fun y waits => acts.waits y (ih.2.2 y waits)⟩

theorem mem_loads_after (p : Program) (s : Taint) (fresh : s.sources.loads = [])
    (past : List (Moment σ)) {site : StmtRef} {v : VarId} {g : FieldId} :
    (site, v, g) ∈ (s.after p past).sources.loads ↔
      site ∈ told Event.stmt? past ∧ p.Loads site v g ∧ (s.sources.fieldTy? g).isSome = true := by
  induction past using List.reverseRecOn with
  | nil => simp [after, replay, fresh, told]
  | append_singleton past x ih =>
    have acts := react_acts p x.facts (s.after p past) x.event
    have same : (s.after p past).sources.fieldTy? g = s.sources.fieldTy? g := by
      rw [TaintSources.fieldTy?, TaintSources.fieldTy?, (s.after_frame p past).2.1]
    rw [after_snoc, acts.loads, ih, told_snoc, List.mem_append, Option.mem_toList,
      Event.stmt?_eq_some, same]
    tauto

theorem Opens.framed {ts : List TaintTransfer} {f : Facts} {s : Taint} {e : Event} {c : ContextId}
    {openings : List Opening}
    (opens : s.Opens p f e c openings) (sane : f.Sane p (Law.free ts)) : ∃ frame, f.FrameOf c frame := by
  cases opens with
  | entry known =>
    obtain ⟨frame, named, _⟩ := sane.methods _ _ _ known
    exact ⟨frame, named⟩
  | call place _ _ _ =>
    obtain ⟨frame, named, _⟩ := sane.only.reached (Facts.placed_only (sane.only.sites _ _ _ place))
    exact ⟨frame, named⟩

/-- The part of taint in a run that is over. What taint asks for at any moment is found in the end, but for
sanitized parameters. -/
structure Outcome (p : Program) (rules : HeapRules) (first : Taint) (record : List (Moment σ)) (f : Facts) :
    Prop extends Chronicle p (Law.free first.transfers.transfers) rules record f where
  asked : ∀ past x rest, record = past ++ x :: rest →
    ∀ d ∈ ((first.after p past).react p x.facts x.event).commands, ∀ cell i,
      x.facts.Asks p d (.points cell i) →
        f.Found (.points cell i) ∨ ∃ frame v, cell = .var frame v ∧ first.config.Sanitizes p v
  joined : ∀ past x rest, record = past ++ x :: rest →
    ∀ label a b, .addFlow label a b ∈ ((first.after p past).react p x.facts x.event).commands →
      ∃ source target, f.PointerRefIs a source ∧ f.PointerRefIs b target ∧ f.Linked label source target
  crossed : ∀ id e o d, f.flow.edge? id = some e → f.elements.Holds e.source o →
    f.crossing? p id e.label o = some d → ∃ o', f.describe? o' = some d ∧ (f.elements.Holds e.target o' ∨
      ∃ c v, f.elements.pointer? e.target = some (.var c v) ∧ first.config.Sanitizes p v)
  labels : ∀ id e, f.flow.edge? id = some e → e.label.Listed first.transfers.transfers

/-- Pending taint was asked to go into an object, which had a name by then. -/
def PutInto (p : Program) (first : Taint) (record : List (Moment σ)) (m : PendingMark) (o : CsObjId) : Prop :=
  ∀ r, TaintSources.inside? m.kind o = some r → ∃ past x rest, record = past ++ x :: rest ∧
    .addPointsTo r [.plain m.mark] ∈ ((first.after p past).react p x.facts x.event).commands ∧
      ∃ i, x.facts.ItemOf o i

/-- The taint that is pending was asked to go into all that came to its variable so far. -/
def Covers (p : Program) (first : Taint) (record past : List (Moment σ)) (s : Taint) : Prop :=
  ∀ m ∈ s.sources.pending, ∀ y ∈ past, ∀ q delta, y.event = .arrived q delta →
    y.facts.elements.pointer? q = some (.var m.context m.var) → ∀ o ∈ delta, PutInto p first record m o

namespace Outcome

variable {rules : HeapRules} {record past rest : List (Moment σ)} {x : Moment σ} {f : Facts} {m : PendingMark}
  {c : ContextId} {v : VarId} {ty : Ty} {index : IndexRef} {site : StmtRef}

variable (outcome : Outcome p rules first record f)

include outcome

theorem covers (past rest : List (Moment σ)) (cut : record = past ++ rest) :
    Covers p first record past (first.after p past) := by
  -- one moment after the other: either the objects are new for the taint, or the taint for the objects
  refine replay_induct (Covers p first record) (fun m _ y none => nomatch none) ?_ past rest cut
  intro past x rest cut ih m waits y listed q delta event pointer o new r inside
  have acts := react_acts p x.facts (first.after p past) x.event
  have sane := (outcome.soundAt cut).sane
  rcases acts.pending m waits with old | ⟨_, covers⟩
  · rcases List.mem_append.mp listed with before | here
    · exact ih m old y before q delta event pointer o new r inside
    · -- the objects come just now
      cases List.mem_singleton.mp here
      have held := (outcome.accounts.arrived x (by simp [cut]) q delta event).2 o new
      obtain ⟨_, i, _, item, _⟩ := sane.held q o held
      refine ⟨past, x, rest, cut, acts.updates q delta _ _ event pointer _ (List.mem_append_left _ ?_), i, item⟩
      refine List.mem_flatMap.mpr ⟨m, List.mem_filter.mpr ⟨old, by simp⟩, ?_⟩
      exact TaintSources.mem_markInside.mpr ⟨o, new, r, inside, rfl⟩
  · -- the taint comes just now, and the objects are there
    have seen := outcome.seen cut listed event pointer new
    cases pts : x.facts.varPts? m.context m.var with
    | none => simp [pts] at seen
    | some objs =>
      rw [pts, Option.getD_some] at seen
      obtain ⟨i, item⟩ := sane.items pts o seen
      exact ⟨past, x, rest, cut, covers objs pts _ (TaintSources.mem_markInside.mpr
        ⟨o, seen, r, inside, rfl⟩), i, item⟩

theorem inside (waits : m ∈ (first.after p record).sources.pending) {o : CsObjId}
    (held : f.At (.var m.context m.var) o) {r : PointerRef} (inside : TaintSources.inside? m.kind o = some r)
    (ptr : Pointer) (place : Item → Cell)
    (named : ∀ g : Facts, ∀ i, g.ItemOf o i → g.PointerRefIs r (place i) ∧ g.PointerIs ptr (place i))
    (other : ∀ i frame v, place i ≠ .var frame v) : f.Has ptr m.mark := by
  obtain ⟨q, pointer, held⟩ := held
  obtain ⟨past, y, rest, delta, cut, event, new, held'⟩ := outcome.came held
  obtain ⟨_, _, ⟨ptr', known, _⟩, _⟩ := (outcome.soundAt cut).sane.held q o held'
  cases ((outcome.below cut).pointers _ _ known).symm.trans pointer
  obtain ⟨before, x, later, cut', asked, i, item⟩ := outcome.covers record [] (List.append_nil _).symm m waits
    y (by simp [cut]) q delta event known o new r inside
  have grown := (outcome.below cut').toExtends
  have found := outcome.asked before x later cut' _ asked (place i) ⟨[], m.mark⟩
    ⟨(named _ i item).1, _, List.mem_singleton_self _, x.facts.objRefIs_plain m.mark⟩
  refine Facts.has_of_found (named f i (grown.itemOf item)).2 (found.resolve_right ?_)
  rintro ⟨frame, v, same, _⟩
  exact other i frame v same

theorem fills (waits : m ∈ (first.after p record).sources.pending) (kind : m.kind ≠ .var) :
    f.Fills m.context m.var m.mark m.kind := by
  have within := fun {o} => outcome.inside waits (o := o)
  obtain ⟨c, v, index, mark⟩ := m
  cases index with
  | var => exact absurd rfl kind
  | array =>
    intro o held
    exact within held rfl (.element o) .element (fun g i item => ⟨item, item⟩) nofun
  | field g =>
    intro o held
    exact within held rfl (.field o g) (.field · g) (fun h i item => ⟨⟨item, rfl⟩, item, rfl⟩) nofun

theorem letsIn (cut : record = past ++ x :: rest) {openings : List Opening}
    (opens : (first.after p past).Opens p x.facts x.event c openings) {a : SourcePoint} {kind : IndexKind}
    (listed : (a, v, kind, ty) ∈ openings) :
    first.config.LetsIn p f (first.after p record).marks a ty c v kind := by
  have acts := react_acts p x.facts (first.after p past) x.event
  obtain ⟨obj, names, lets⟩ := acts.opened c openings opens _ listed
  have later := first.after_later p (past ++ [x]) rest
  rw [List.append_assoc, List.singleton_append, ← cut, after_snoc] at later
  refine ⟨obj, names.later later.1, ?_⟩
  by_cases var : kind = .var
  · obtain ⟨frame, named⟩ := opens.framed (outcome.soundAt cut).sane
    have is : f.PointerIs (.var c v) (.var frame v) := ⟨(outcome.below cut).toExtends.frameOf named, rfl⟩
    rcases outcome.asked past x rest cut _ (lets.var var) (.var frame v) ⟨[], obj⟩
      ⟨⟨named, rfl⟩, _, List.mem_singleton_self _, x.facts.objRefIs_plain obj⟩ with found | ⟨_, _, same, sanitizes⟩
    · rw [var]
      exact Or.inl (Facts.has_of_found is found)
    · cases same
      exact Or.inr ⟨var, sanitizes⟩
  · exact Or.inl (outcome.fills (later.2.1 _ (lets.inside var)) var)

theorem letsIn_call {m : MethodId} (source : .call m index ty ∈ first.sources.sources) {e : CallEdge}
    (edge : e ∈ f.calls.edges) (real : e.kind ≠ .other) {d : ContextId}
    (place : f.elements.site? e.site = some (c, site)) (target : f.elements.method? e.callee = some (d, m))
    {call : Invoke} (invokes : p.invoke? site = some call) (var : index.index.callVar? call = some v) :
    first.config.LetsIn p f (first.after p record).marks (.call site index) ty c v index.kind := by
  -- the ends of the call were known when it was told of
  obtain ⟨past, x, rest, cut, event, _, _, _, _, ⟨_, place', _⟩, _, target', _⟩ := outcome.calling edge
  have below := outcome.below cut
  cases (below.sites _ _ place').symm.trans place
  cases (below.methods _ _ target').symm.trans target
  have opens : (first.after p past).Opens p x.facts x.event c
      ((first.after p past).sources.callPoints site call m) := event ▸ .call place' target' invokes real
  refine outcome.letsIn cut opens (TaintSources.mem_callPoints.mpr ⟨index, ?_, var, rfl, rfl⟩)
  rw [(first.after_frame p past).2.1]
  exact source

/-- A method is reached in a context after its statements were told of, and then taint is let in. -/
theorem entry_opens {m : MethodId} (reaches : f.Reaches c m) :
    ∃ past x rest, record = past ++ x :: rest ∧
      (∀ site stmt, site.method = m → p.stmt? site = some stmt → site ∈ told Event.stmt? past) ∧
      (first.after p past).Opens p x.facts x.event c ((first.after p past).sources.methodPoints p m) := by
  obtain ⟨id, reachable, known⟩ := reaches
  obtain ⟨past, x, rest, cut, picked⟩ := mem_told.mp ((outcome.accounts.csMethods.2 id).mpr reachable)
  have event := Event.csMethod?_eq_some.mp picked
  obtain ⟨_, c', m', known', _⟩ := ((outcome.proper past x rest cut).1).of_event event
  cases ((outcome.below cut).methods _ _ known').symm.trans known
  exact ⟨past, x, rest, cut, (outcome.accounts.ordered past x rest id c m cut event known).2,
    event ▸ .entry known'⟩

theorem letsIn_param {m : MethodId} (source : .param m index ty ∈ first.sources.sources) (reaches : f.Reaches c m)
    {body : Body} (code : p.body? m = some body) (var : index.index.paramVar? body = some v) :
    first.config.LetsIn p f (first.after p record).marks (.param m index) ty c v index.kind := by
  obtain ⟨past, x, rest, cut, _, opens⟩ := outcome.entry_opens reaches
  refine outcome.letsIn cut opens (TaintSources.mem_methodPoints.mpr (Or.inl
    ⟨body, index, code, ?_, var, rfl, rfl⟩))
  rw [(first.after_frame p past).2.1]
  exact source

theorem letsIn_load (fresh : first.sources.loads = []) {g : FieldId} (given : first.sources.fieldTy? g = some ty)
    (loads : p.Loads site v g) (reaches : f.Reaches c site.method) :
    first.config.LetsIn p f (first.after p record).marks (.field site g) ty c v .var := by
  obtain ⟨past, x, rest, cut, before, opens⟩ := outcome.entry_opens reaches
  obtain ⟨stmt, known, _⟩ := loads.writes
  have recorded := (first.mem_loads_after p fresh past).mpr
    ⟨before site stmt rfl known, loads, by rw [given]; rfl⟩
  refine outcome.letsIn cut opens (TaintSources.mem_methodPoints.mpr (Or.inr
    ⟨site, g, recorded, rfl, ?_, rfl, rfl⟩))
  rw [TaintSources.fieldTy?, (first.after_frame p past).2.1]
  exact given

end Outcome

end Taint

theorem Registry.solved_outcome {p : Program} {o : Options} {files : FileTree} {chain : Chain} {sel : Selector}
    {path : String} {config : TaintConfig} (made : builtin.chain p o files = .ok chain) (declared : p.Scoped)
    (given : o.taintConfig = some path) (loaded : TaintConfig.load p files path = .ok config) {fuel : Nat}
    (solved : Solver.solve (Chain.setup p sel) fuel (Heap.ofProgram p o.mergeStrings) chain = some t) :
    ∃ record : List (Moment Chain), Taint.Outcome p (HeapRules.ofProgram p o.mergeStrings)
        (Taint.ofConfig (config.under o)) record t.toFacts ∧
      ∀ s, .taint s ∈ t.handler ↔ s = (Taint.ofConfig (config.under o)).after p record := by
  obtain ⟨listed, only⟩ := chain_taints made given loaded
  obtain ⟨w, u, heeds, finishes, facts, handler⟩ := solved_heeds made declared solved
  obtain ⟨same, kept⟩ := heeds.finish finishes
  have chronicle := heeds.toForestalls.toAttends.chronicle finishes
  have transfers : chain.transfers = (Taint.ofConfig (config.under o)).transfers.transfers :=
    Chain.transfers_eq listed fun s member => by rw [only s member]
  rw [show u.record = w.record from congrArg Prod.snd kept, same, ← facts] at chronicle
  have sanitized : ∀ {c v obj}, Forbids (Chain.setup p sel) w.record c v obj →
      (Taint.ofConfig (config.under o)).config.Sanitizes p v := by
    intro c v obj forbids
    obtain ⟨s, member, sanitizes⟩ := Chain.sanitizes_of_forbids heeds forbids
    rw [only s member] at sanitizes
    exact sanitizes
  refine ⟨w.record, ⟨transfers ▸ chronicle, fun past x rest cut d asked cell i asks => ?_,
    fun past x rest cut label a b asked => ?_, fun id e o d edge held crosses => ?_, fun id e edge => ?_⟩,
    fun s => ?_⟩
  · have asked' := Chain.asked_by_taint heeds cut listed asked
    rw [facts]
    refine (heeds.outcome finishes (by simp [cut]) asked' asks).imp_right ?_
    rintro ⟨c, v, frame, same, _, forbids⟩
    exact ⟨frame, v, same, sanitized forbids⟩
  · rw [facts]
    exact heeds.served_all finishes (x := x) (by simp [cut]) (Chain.asked_by_taint heeds cut listed asked)
  · rw [facts] at edge held crosses ⊢
    obtain ⟨o', described, delivered⟩ := heeds.flows id e o edge held d crosses
    refine ⟨o', described, (heeds.delivered finishes delivered).imp_right ?_⟩
    rintro ⟨c, v, obj, pointer, _, forbids⟩
    exact ⟨c, v, pointer, sanitized forbids⟩
  · rw [facts] at edge
    obtain ⟨_, _, _, _, _, _, flows⟩ := heeds.settles.obeys (.edge id e) edge
    rcases flows with rule | listed
    · exact rule.listed _
    · exact transfers ▸ listed
  · rw [handler, List.mem_map]
    constructor
    · rintro ⟨h, member, same⟩
      obtain ⟨first, rfl, rfl⟩ := Taint.of_replay same
      rw [only first member]
    · rintro rfl
      exact ⟨_, listed, Taint.replay_eq _ _ _⟩

/-- All taint of call and parameter sources is let in. -/
structure TaintConfig.Complete (config : TaintConfig) (p : Program) (f : Facts) (marks : Marks) : Prop where
  /-- No call escapes for want of a name. -/
  known : ∀ e ∈ f.calls.edges, ∃ c site d m,
    f.elements.site? e.site = some (c, site) ∧ f.elements.method? e.callee = some (d, m)
  calls : ∀ m index ty, .call m index ty ∈ config.sources → ∀ e ∈ f.calls.edges, e.kind ≠ .other →
    ∀ c site d, f.elements.site? e.site = some (c, site) → f.elements.method? e.callee = some (d, m) →
      ∀ call v, p.invoke? site = some call → index.index.callVar? call = some v →
        config.LetsIn p f marks (.call site index) ty c v index.kind
  params : ∀ m index ty, .param m index ty ∈ config.sources → ∀ c, f.Reaches c m →
    ∀ body v, p.body? m = some body → index.index.paramVar? body = some v →
      config.LetsIn p f marks (.param m index) ty c v index.kind

namespace Analysis

variable {a : Analysis} {o : Options} {path : String} {config : TaintConfig}

/-- Call and parameter sources are complete under every selector, and every run returns. -/
theorem sources_complete (registered : a.registry = Registry.builtin) (declared : a.program.Scoped)
    (given : o.taintConfig = some path) (loaded : TaintConfig.load a.program a.files path = .ok config)
    (sel : Selector) :
    (∀ r, a.solve o sel = .ok r → (∃ s, .taint s ∈ r.chain) ∧
      ∀ s, .taint s ∈ r.chain → config.Complete a.program r.facts s.marks) ∧
    ∀ chain, a.registry.chain a.program o a.files = .ok chain → ∃ n, ∀ limit, n ≤ limit →
      ∃ r, { a with stepLimit := limit }.solve o sel = .ok r := by
  refine solve_spec registered sel fun chain t made run => ?_
  obtain ⟨record, outcome, handler⟩ := Registry.solved_outcome made declared given loaded run
  refine ⟨⟨_, (handler _).mpr rfl⟩, fun s listed => ?_⟩
  obtain rfl := (handler s).mp listed
  refine ⟨fun e edge => ?_, fun m index ty source e edge real c site d place target call v invokes var => ?_,
    fun m index ty source c reaches body v code var => ?_⟩
  · obtain ⟨_, _, _, _, ⟨⟨_, place, _⟩, _, target, _⟩, _⟩ :=
      (Registry.solved_stands made declared run).sane.calls e edge
    exact ⟨_, _, _, _, place, target⟩
  · exact outcome.letsIn_call source edge real place target invokes var
  · exact outcome.letsIn_param source reaches code var

end Analysis

def shopAnalysis : Analysis := { program := shop, files := shopFiles, stepLimit := 400 }

theorem shop_result (run : shopRun = some t) :
    shopAnalysis.solve shopOptions (.limited (.callSite 1)) =
      .ok ⟨shop, Selector.name (.limited (.callSite 1)), t.toFacts, t.stats, t.handler⟩ :=
  Analysis.solve_of_run rfl shop_chain run

/-- The rag is tainted and so is what is taken from the pile; the parameter of the wash is a source in
vain. -/
theorem Analysis.shop_sources_complete : ∃ r s,
    shopAnalysis.solve shopOptions (.limited (.callSite 1)) = .ok r ∧ .taint s ∈ r.chain ∧
      [1, 7, 8].map r.facts.taints = [[false], [true], [false, true]] ∧
        shopTaint.Complete shop r.facts s.marks := by
  obtain ⟨t, run, taints⟩ := shop_taints
  simp only [List.map_cons, List.map_nil, List.cons.injEq] at taints
  have solved := shop_result run
  obtain ⟨⟨s, listed⟩, complete⟩ := (sources_complete rfl (by decide) rfl shop_loaded _).1 _ solved
  refine ⟨_, s, solved, listed, ?_, complete s listed⟩
  simp only [List.map_cons, List.map_nil, taints]

namespace TaintConfig

variable {config : TaintConfig} {g : FieldId} {ty : Ty}

/-- A field is a source of taint of a type, and no later entry names the field. -/
def Ends (config : TaintConfig) (g : FieldId) (ty : Ty) : Prop :=
  ∃ before after, config.sources = before ++ .field g ty :: after ∧ ∀ ty', .field g ty' ∉ after

theorem ends_of_mem (listed : .field g ty ∈ config.sources) : ∃ ty', config.Ends g ty' := by
  cases given : (Taint.ofConfig config).sources.fieldTy? g with
  | some ty' => exact ⟨ty', TaintSources.fieldTy?_eq_some.mp given⟩
  | none =>
    rw [TaintSources.fieldTy?, List.findSome?_eq_none_iff] at given
    simpa using given _ (List.mem_reverse.mpr listed)

end TaintConfig

namespace Analysis

variable {a : Analysis} {o : Options} {path : String} {config : TaintConfig}

/-- The last entry of every source field is complete under every selector: taint of its type is let in
wherever the field is loaded. Every run returns. -/
theorem field_sources_complete (registered : a.registry = Registry.builtin) (declared : a.program.Scoped)
    (given : o.taintConfig = some path) (loaded : TaintConfig.load a.program a.files path = .ok config)
    (sel : Selector) :
    (∀ r, a.solve o sel = .ok r → (∃ s, .taint s ∈ r.chain) ∧ ∀ s, .taint s ∈ r.chain →
      (∀ g ty, .field g ty ∈ config.sources → ∃ ty', config.Ends g ty') ∧
      ∀ g ty, config.Ends g ty → ∀ site v, a.program.Loads site v g → ∀ c, r.facts.Reaches c site.method →
        config.LetsIn a.program r.facts s.marks (.field site g) ty c v .var) ∧
    ∀ chain, a.registry.chain a.program o a.files = .ok chain → ∃ n, ∀ limit, n ≤ limit →
      ∃ r, { a with stepLimit := limit }.solve o sel = .ok r := by
  refine solve_spec registered sel fun chain t made run => ?_
  obtain ⟨record, outcome, handler⟩ := Registry.solved_outcome made declared given loaded run
  refine ⟨⟨_, (handler _).mpr rfl⟩, fun s listed => ?_⟩
  obtain rfl := (handler s).mp listed
  refine ⟨fun g ty => TaintConfig.ends_of_mem, fun g ty ends site v loads c reaches => ?_⟩
  exact outcome.letsIn_load rfl (TaintSources.fieldTy?_eq_some.mpr ends) loads reaches

end Analysis

theorem Facts.At.mem_objsAt {f : Facts} {c : ContextId} {v : VarId} {o : CsObjId}
    (held : f.At (.var c v) o) : o ∈ f.objsAt v .var := by
  obtain ⟨q, known, pts, found, member⟩ := held
  refine List.mem_flatMap.mpr ⟨q, Elements.mem_varsOf.mpr ⟨c, known⟩, ?_⟩
  rw [found]
  exact member

/-- The types of what the brand holds, and where the method that loads it is reached. -/
theorem shop_brand : ∃ t, shopRun = some t ∧ t.Reaches ContextTable.emptyId 5 ∧
    (t.objsAt 11 .var).map (fun o => (t.obj? o).map Obj.ty) = [some (.cls 1)] := by
  have run : shopRun.map (fun t => ((t.calls.reachable.map t.elements.method?).contains
      (some (ContextTable.emptyId, 5)), (t.objsAt 11 .var).map (fun o => (t.obj? o).map Obj.ty))) =
        some (true, [some (.cls 1)]) := by decide +kernel
  obtain ⟨t, run, same⟩ := Option.map_eq_some_iff.mp run
  simp only [Prod.mk.injEq, List.contains_iff_mem, List.mem_map] at same
  obtain ⟨⟨id, reachable, known⟩, types⟩ := same
  exact ⟨t, run, ⟨id, reachable, known⟩, types⟩

/-- The brand gets taint of the type of its last entry. -/
theorem Analysis.shop_field_complete : ∃ r s,
    shopAnalysis.solve shopOptions (.limited (.callSite 1)) = .ok r ∧ .taint s ∈ r.chain ∧
      shopTaint.Ends 0 (.cls 1) ∧ shop.Loads ⟨5, 6⟩ 11 0 ∧ r.facts.Reaches ContextTable.emptyId 5 ∧
      shopTaint.LetsIn shop r.facts s.marks (.field ⟨5, 6⟩ 0) (.cls 1) ContextTable.emptyId 11 .var := by
  obtain ⟨t, run, reaches, _⟩ := shop_brand
  have solved := shop_result run
  have ends : shopTaint.Ends 0 (.cls 1) := ⟨shopTaint.sources.dropLast, [], rfl, fun _ => List.not_mem_nil⟩
  have loads : shop.Loads ⟨5, 6⟩ 11 0 := .static rfl
  obtain ⟨⟨s, listed⟩, complete⟩ := (field_sources_complete rfl (by decide) rfl shop_loaded _).1 _ solved
  exact ⟨_, s, solved, listed, ends, loads, reaches, (complete s listed).2 0 _ ends _ _ loads _ reaches⟩

/-- The first entry of the brand lets no taint of its type in. -/
theorem Analysis.shop_field_incomplete : ∃ r,
    shopAnalysis.solve shopOptions (.limited (.callSite 1)) = .ok r ∧
      .field 0 (.cls 0) ∈ shopTaint.sources ∧ shop.Loads ⟨5, 6⟩ 11 0 ∧
      r.facts.Reaches ContextTable.emptyId 5 ∧ ∀ s, .taint s ∈ r.chain →
        ¬ shopTaint.LetsIn shop r.facts s.marks (.field ⟨5, 6⟩ 0) (.cls 0) ContextTable.emptyId 11 .var := by
  obtain ⟨t, run, reaches, types⟩ := shop_brand
  refine ⟨_, shop_result run, by decide, .static rfl, reaches, fun s _ => ?_⟩
  rintro ⟨obj, names, ⟨o, described, held⟩ | ⟨_, sanitizer, listed, body, code, var⟩⟩
  · have known : some obj.ty ∈ (t.objsAt 11 .var).map fun o => (t.obj? o).map Obj.ty :=
      List.mem_map.mpr ⟨o, held.mem_objsAt, by rw [Facts.obj?_of_describe? described]; rfl⟩
    rw [types, names.ty_eq] at known
    cases List.mem_singleton.mp known
  · cases List.mem_singleton.mp listed
    cases code
    cases var

end PointsTo
