import PointsTo.Proofs.Provenance

/-!
Transfers are complete. A call of its method joins what the two ends of a transfer stand for by then,
and an object that comes later is joined with what the other end stands for when it comes. So the order
of arrival does not matter.
-/
namespace PointsTo

def Pointer.ref : Pointer → PointerRef
  | .var c v => .var c v
  | .field o g => .field (.interned o) g
  | .element o => .element (.interned o)
  | .static g => .static g

namespace Facts

variable {f : Facts} {c : ContextId} {v : VarId} {kind : IndexKind} {ptr : Pointer}

theorem pointerRefIs_ref {x : Cell} : f.PointerRefIs ptr.ref x ↔ f.PointerIs ptr x := by
  cases ptr <;> cases x <;> rfl

/-- The pointers that an index of a variable stands for. -/
def Denotes (f : Facts) (c : ContextId) (v : VarId) : IndexKind → Pointer → Prop
  | .var, ptr => ptr = .var c v
  | .array, ptr => ∃ o, f.At (.var c v) o ∧ ptr = .element o
  | .field g, ptr => ∃ o, f.At (.var c v) o ∧ ptr = .field o g

theorem Denotes.cases (denotes : f.Denotes c v kind ptr) : kind = .var ∧ ptr.ref = .var c v ∨
    ∃ o, f.At (.var c v) o ∧ TaintSources.inside? kind o = some ptr.ref := by
  cases kind with
  | var =>
    rw [show ptr = .var c v from denotes]
    exact Or.inl ⟨rfl, rfl⟩
  | array | field g =>
    obtain ⟨o, held, rfl⟩ := denotes
    exact Or.inr ⟨o, held, rfl⟩

/-- An edge of the transfers joins two pointers. -/
def Bridges (f : Facts) (a b : Pointer) : Prop :=
  ∃ id e info, f.flow.edge? id = some e ∧ e.label = .other info ∧ info.origin = "taint-transfer" ∧
    f.elements.pointer? e.source = some a ∧ f.elements.pointer? e.target = some b

end Facts

namespace Taint

variable {σ : Type u} {p : Program} {rules : HeapRules} {first : Taint} {f : Facts}
  {record past before after : List (Moment σ)} {x : Moment σ} {t : TransferSite} {c : ContextId}
  {e : VarId × IndexKind} {r a b : PointerRef}

/-- What one end of a transfer stands for after the arrivals so far. -/
def Shown (past : List (Moment σ)) (c : ContextId) (e : VarId × IndexKind) (r : PointerRef) : Prop :=
  e.2 = .var ∧ r = .var c e.1 ∨ ∃ y ∈ past, ∃ q delta, y.event = .arrived q delta ∧
    y.facts.elements.pointer? q = some (.var c e.1) ∧ TaintSources.Within delta e.2 r

theorem Shown.snoc (shown : Shown (past ++ [x]) c e r) : Shown past c e r ∨ ∃ q delta,
    x.event = .arrived q delta ∧ x.facts.elements.pointer? q = some (.var c e.1) ∧
      TaintSources.Within delta e.2 r := by
  rcases shown with var | ⟨y, listed, arrived⟩
  · exact Or.inl (Or.inl var)
  · rcases List.mem_append.mp listed with before | here
    · exact Or.inl (Or.inr ⟨y, before, arrived⟩)
    · rw [List.mem_singleton.mp here] at arrived
      exact Or.inr arrived

/-- An edge of a transfer was asked for. -/
def Joins (p : Program) (first : Taint) (record : List (Moment σ)) (t : TransferSite) (a b : PointerRef) :
    Prop :=
  ∃ past x rest, record = past ++ x :: rest ∧
    t.edge a b ∈ ((first.after p past).react p x.facts x.event).commands

theorem Acts.expands {s : Taint} {e : Event} {r : Reaction Taint} (acts : Acts p f s e r) {v : VarId}
    (waits : (v, t) ∈ s.transfers.pending) {q : PointerId} {delta : ObjSet} (event : e = .arrived q delta)
    (known : f.elements.pointer? q = some (.var t.context v)) : ∀ d ∈ t.expand f v delta, d ∈ r.commands := by
  intro d asked
  refine acts.updates q delta _ _ event known d (List.mem_append_right _ ?_)
  exact List.mem_flatMap.mpr ⟨(v, t), List.mem_filter.mpr ⟨waits, by simp⟩, asked⟩

namespace Outcome

variable (outcome : Outcome p rules first record f)

include outcome

theorem mem_ends {rest : List (Moment σ)} (cut : record = past ++ x :: rest)
    (shown : Shown (past ++ [x]) t.context e r) : r ∈ t.ends x.facts e := by
  rw [TransferSite.mem_ends]
  rcases shown with var | ⟨y, listed, q, delta, event, known, o, new, inside⟩
  · exact Or.inl var
  · have seen := outcome.seen cut listed event known new
    cases held : x.facts.varPts? t.context e.1 with
    | none => simp [held] at seen
    | some objs =>
      rw [held, Option.getD_some] at seen
      exact Or.inr ⟨objs, rfl, o, seen, inside⟩

/-- What an index stands for in the end has come at some moment. -/
theorem shown_of_denotes {ptr : Pointer} (denotes : f.Denotes c e.1 e.2 ptr) : Shown record c e ptr.ref := by
  rcases denotes.cases with var | ⟨o, ⟨q, pointer, held⟩, inside⟩
  · exact Or.inl var
  · obtain ⟨past, y, rest, delta, cut, event, new, held'⟩ := outcome.came held
    obtain ⟨_, _, ⟨ptr', known, _⟩, _⟩ := (outcome.soundAt cut).sane.held q o held'
    cases ((outcome.below cut).pointers _ _ known).symm.trans pointer
    exact Or.inr ⟨y, by simp [cut], q, delta, event, known, o, new, inside⟩

theorem joins_all (cut : record = before ++ x :: after)
    (begins : (first.after p before).Begins p x.facts x.event t) (mid rest : List (Moment σ))
    (split : after = mid ++ rest) (source : Shown (before ++ x :: mid) t.context t.source a)
    (target : Shown (before ++ x :: mid) t.context t.target b) : Joins p first record t a b := by
  have started := (react_acts p x.facts (first.after p before) x.event).begun t begins
  induction mid using List.reverseRecOn generalizing rest with
  | nil =>
    exact ⟨before, x, after, cut, started.joins a (outcome.mem_ends cut source) b
      (outcome.mem_ends cut target)⟩
  | append_singleton mid y ih =>
    have whole : record = (before ++ x :: mid) ++ y :: rest := by simp [cut, split]
    have later := (first.after_later p (before ++ [x]) mid).2.2
    rw [after_snoc, List.append_assoc, List.singleton_append] at later
    have waits : ∀ v ∈ TaintTransfers.waitsFor t,
        (v, t) ∈ (first.after p (before ++ x :: mid)).transfers.pending :=
      fun v waiting => later _ (started.waits v waiting)
    have acts := react_acts p y.facts (first.after p (before ++ x :: mid)) y.event
    rw [← List.cons_append, ← List.append_assoc] at source target
    -- both places were there, or one of them comes now and meets the other
    rcases source.snoc with old | ⟨q, delta, event, known, within⟩
    · rcases target.snoc with old' | ⟨q, delta, event, known, within⟩
      · exact ih (y :: rest) (by simp [split]) old old'
      · have waiting := waits _ (TaintTransfers.mem_waitsFor.mpr (Or.inr ⟨within.kind_ne, rfl⟩))
        refine ⟨_, y, rest, whole, acts.expands waiting event known _ (TransferSite.mem_expand.mpr ?_)⟩
        exact ⟨a, b, rfl, Or.inr ⟨rfl, within, outcome.mem_ends whole source⟩⟩
    · have waiting := waits _ (TaintTransfers.mem_waitsFor.mpr (Or.inl ⟨within.kind_ne, rfl⟩))
      refine ⟨_, y, rest, whole, acts.expands waiting event known _ (TransferSite.mem_expand.mpr ?_)⟩
      exact ⟨a, b, rfl, Or.inl ⟨rfl, within, outcome.mem_ends whole target⟩⟩

theorem linked {a b : Pointer} (joins : Joins p first record t a.ref b.ref) : ∃ id e, f.flow.edge? id = some e ∧
      e.label = .other { origin := "taint-transfer", key := t.id, transfer := some (taintTransfer t.ty) } ∧
      f.elements.pointer? e.source = some a ∧ f.elements.pointer? e.target = some b := by
  obtain ⟨past, x, rest, cut, asked⟩ := joins
  obtain ⟨from_, to_, source, target, id, e, edge, label, ⟨a', first, is⟩, b', second, is'⟩ :=
    outcome.joined past x rest cut _ _ _ asked
  obtain rfl := (Facts.pointerRefIs_ref.mp source).inj is
  obtain rfl := (Facts.pointerRefIs_ref.mp target).inj is'
  exact ⟨id, e, edge, label, first, second⟩

theorem joins_ends {x : TaintTransfer} (transfer : x ∈ first.transfers.transfers) {e : CallEdge}
    (edge : e ∈ f.calls.edges) (real : e.kind ≠ .other) {d : ContextId} {site : StmtRef}
    (place : f.elements.site? e.site = some (c, site)) (target : f.elements.method? e.callee = some (d, x.method))
    {call : Invoke} (invokes : p.invoke? site = some call) {v w : VarId}
    (first_ : x.source.index.callVar? call = some v) (second : x.target.index.callVar? call = some w)
    {a b : Pointer} (from_ : f.Denotes c v x.source.kind a) (to_ : f.Denotes c w x.target.kind b) :
    ∃ id, Joins p first record ⟨id, x.ty, c, (v, x.source.kind), (w, x.target.kind)⟩ a.ref b.ref := by
  obtain ⟨id, listed⟩ := List.mem_iff_getElem?.mp transfer
  -- the ends of the call were known when it was told of
  obtain ⟨past, y, rest, cut, event, _, _, _, _, ⟨_, place', _⟩, _, target', _⟩ := outcome.calling edge
  have below := outcome.below cut
  cases (below.sites _ _ place').symm.trans place
  cases (below.methods _ _ target').symm.trans target
  have begins : (first.after p past).Begins p y.facts y.event
      ⟨id, x.ty, c, (v, x.source.kind), (w, x.target.kind)⟩ := by
    rw [event]
    refine .call place' target' invokes real (TaintTransfers.mem_sitesAt.mpr ⟨x, ?_, rfl, first_, second, rfl⟩)
    rw [(first.after_frame p past).2.2]
    exact listed
  have source := outcome.shown_of_denotes (e := (v, x.source.kind)) from_
  have target := outcome.shown_of_denotes (e := (w, x.target.kind)) to_
  rw [cut] at source target
  exact ⟨id, outcome.joins_all cut begins rest [] (List.append_nil _).symm source target⟩

theorem passes {id : EdgeId} {e : FlowEdge} (edge : f.flow.edge? id = some e) {origin : String} {key : Nat}
    {ty : Ty} (label : e.label = .other { origin, key, transfer := some (taintTransfer ty) }) {a b : Pointer}
    (source : f.elements.pointer? e.source = some a) (target : f.elements.pointer? e.target = some b)
    {o : CsObjId} (held : f.At a o) {obj : Obj} (object : f.obj? o = some obj) {marks : Marks}
    {point : SourcePoint} (names : marks.Names point obj.ty obj) :
    f.Has b { obj with ty } ∨ ∃ c v, b = .var c v ∧ first.config.Sanitizes p v := by
  obtain ⟨q, pointer, held⟩ := held
  obtain rfl := Table.get?_inj pointer source
  obtain ⟨h, described⟩ := Facts.describe?_of_obj? object
  have crosses : f.crossing? p id e.label o = some (ContextTable.emptyId, { obj with ty }) := by
    simp [Facts.crossing?, described, label, taintTransfer, (names.retaint ty).1]
  obtain ⟨o', described', held' | ⟨c, v, pointer', sanitizes⟩⟩ := outcome.crossed id e o _ edge held crosses
  · exact Or.inl ⟨o', described', e.target, target, held'⟩
  · cases target.symm.trans pointer'
    exact Or.inr ⟨c, v, rfl, sanitizes⟩

end Outcome

end Taint

/-- Transfers pass on all taint, and nothing but taint. -/
structure TaintConfig.Transmits (config : TaintConfig) (p : Program) (f : Facts) : Prop where
  /-- No call escapes for want of a name. -/
  known : ∀ e ∈ f.calls.edges, ∃ c site d m,
    f.elements.site? e.site = some (c, site) ∧ f.elements.method? e.callee = some (d, m)
  /-- At every call of a transfer all pointers of its two ends are joined, and the taint of the one is at the
  other with the type of the transfer, sanitized parameters apart. -/
  passed : ∀ t ∈ config.transfers, ∀ e ∈ f.calls.edges, e.kind ≠ .other →
    ∀ c site d, f.elements.site? e.site = some (c, site) → f.elements.method? e.callee = some (d, t.method) →
      ∀ call v w, p.invoke? site = some call → t.source.index.callVar? call = some v →
        t.target.index.callVar? call = some w →
          ∀ a b, f.Denotes c v t.source.kind a → f.Denotes c w t.target.kind b → f.Bridges a b ∧
            ∀ o, f.At a o → ∃ obj, f.obj? o = some obj ∧ (obj.isTaint = true →
              f.Has b { obj with ty := t.ty } ∨ ∃ c' u, b = .var c' u ∧ config.Sanitizes p u)
  /-- The edges of transfers let no other object cross. -/
  stopped : ∀ id e info, f.flow.edge? id = some e → e.label = .other info → info.origin = "taint-transfer" →
    ∃ t, info.transfer = some t ∧ ∀ h obj, obj.isTaint = false → t h obj = none

namespace Analysis

variable {a : Analysis} {o : Options} {path : String} {config : TaintConfig}

/-- Transfers are complete under every selector, whatever comes first, and every run returns. -/
theorem transfers_complete (registered : a.registry = Registry.builtin) (declared : a.program.Scoped)
    (given : o.taintConfig = some path) (loaded : TaintConfig.load a.program a.files path = .ok config)
    (sel : Selector) :
    (∀ r, a.solve o sel = .ok r → config.Transmits a.program r.facts) ∧
    ∀ chain, a.registry.chain a.program o a.files = .ok chain → ∃ n, ∀ limit, n ≤ limit →
      ∃ r, { a with stepLimit := limit }.solve o sel = .ok r := by
  refine solve_spec registered sel fun chain t made run => ?_
  obtain ⟨record, outcome, handler⟩ := Registry.solved_outcome made declared given loaded run
  have provenance := Registry.solved_provenance made given loaded declared run ((handler _).mpr rfl)
  refine ⟨fun e edge => ?_, ?_, fun id e info edge label origin => ?_⟩
  · obtain ⟨_, _, _, _, ⟨⟨_, place, _⟩, _, target, _⟩, _⟩ :=
      (Registry.solved_stands made declared run).sane.calls e edge
    exact ⟨_, _, _, _, place, target⟩
  · intro x transfer e edge real c site d place target call v w invokes first second from_ to_ source
      destination
    obtain ⟨key, joins⟩ := outcome.joins_ends transfer edge real place target invokes first second source
      destination
    obtain ⟨link, flow, joined, label, start, finish⟩ := outcome.linked joins
    refine ⟨⟨link, flow, _, joined, label, rfl, start, finish⟩, fun o' held => ?_⟩
    obtain ⟨q, _, inside⟩ := id held
    obtain ⟨obj, object, sourced⟩ := provenance.sourced q o' inside
    refine ⟨obj, object, fun taint => ?_⟩
    obtain ⟨point, _, names⟩ := sourced taint
    exact outcome.passes joined label start finish held object names
  · have listed := outcome.labels id e edge
    rw [label, FlowLabel.Listed, if_pos origin] at listed
    obtain ⟨x, _, transfer⟩ := listed
    exact ⟨_, transfer, fun h obj => taintTransfer_clean⟩

end Analysis

/-- The pile of the shop is a source, and sorting it dyes all that lies on it. -/
def dyeworks : Analysis where
  program := shop
  files := { root := "", files := [(["dye.json"], some
    ("\x7b\"sources\":[[\"param\",\"<Shop: void sort(Rag[])>\",\"0[*]\"]]," ++
      "\"transfers\":[[\"<Shop: void sort(Rag[])>\",\"0[*]\",\"0[*]\",\"Silk\"]]\x7d"))] }
  stepLimit := 400

def dyeOptions : Options := { implicitEntries := false, taintConfig := some "/dye.json" }

def dyeTaint : TaintConfig where
  sources := [.param 4 ⟨.arg 0, .array⟩ (.cls 0)]
  transfers := [⟨4, ⟨.arg 0, .array⟩, ⟨.arg 0, .array⟩, .cls 1⟩]

theorem dye_loaded : TaintConfig.load dyeworks.program dyeworks.files "/dye.json" = .ok dyeTaint := by
  have read : (TaintConfig.load dyeworks.program dyeworks.files "/dye.json").toOption = some dyeTaint := by
    decide +kernel
  exact Analysis.ok_of_toOption read

def dyeChain : Chain :=
  [.timer, .entries (Entries.ofOptions shop dyeOptions), .initializers {},
    .threads { methods := ThreadMethods.ofProgram shop dyeOptions }, .natives (Natives.ofProgram shop),
    .exceptions {}, .taint (Taint.ofConfig dyeTaint), .warnings {}]

theorem dye_chain : Registry.builtin.chain dyeworks.program dyeOptions dyeworks.files = .ok dyeChain := by
  rw [Registry.chain_loaded rfl dye_loaded]
  rfl

/-- The types of the taint that a variable holds, in whatever context. -/
def Facts.taintTys (f : Facts) (v : VarId) : List Ty :=
  (f.objsAt v .var).filterMap fun o => ((f.obj? o).filter Obj.isTaint).map Obj.ty

/-- Of the two taints on the pile the second comes from the first, out of the pile and into it. -/
theorem Analysis.dye_transfers_complete : ∃ r,
    dyeworks.solve dyeOptions (.limited (.callSite 1)) = .ok r ∧
      r.facts.taintTys 7 = [.cls 0, .cls 1] ∧ dyeTaint.Transmits shop r.facts := by
  have run : (Solver.solve (Chain.setup shop (.limited (.callSite 1))) 400 (Heap.ofProgram shop true)
      dyeChain).map (fun t => t.toFacts.taintTys 7) = some [.cls 0, .cls 1] := by decide +kernel
  obtain ⟨t, run, taints⟩ := Option.map_eq_some_iff.mp run
  have solved := solve_of_run (a := dyeworks) (o := dyeOptions) rfl dye_chain run
  exact ⟨_, solved, taints, (transfers_complete rfl (by decide) rfl dye_loaded _).1 _ solved⟩

end PointsTo
