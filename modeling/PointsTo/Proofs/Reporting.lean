import PointsTo.Program.Builder
import PointsTo.Proofs.Dispatch
import PointsTo.Proofs.Scaling
import PointsTo.Proofs.Sources

/-!
Flows into sinks are reported exactly, where a sink is called, or is named by a call that is watched,
and taint of the source lies at its place. So watching more calls adds flows, and more sanitizers take
flows away.
-/
namespace PointsTo

namespace Facts

variable {f : Facts} {m : MethodId} {v : VarId} {o : CsObjId} {kind : IndexKind} {site : StmtRef}

/-- An object lies at a place: in a variable in some context, or inside an object that the variable holds. -/
inductive LiesAt (f : Facts) (v : VarId) : IndexKind → CsObjId → Prop
  | var {c : ContextId} {o : CsObjId} (held : f.At (.var c v) o) : LiesAt f v .var o
  | array {c : ContextId} {a o : CsObjId} (held : f.At (.var c v) a) (inside : f.At (.element a) o) :
      LiesAt f v .array o
  | field {c : ContextId} {b o : CsObjId} {g : FieldId} (held : f.At (.var c v) b)
      (inside : f.At (.field b g) o) : LiesAt f v (.field g) o

def CallsAt (f : Facts) (m : MethodId) (site : StmtRef) : Prop :=
  ∃ e ∈ f.calls.edges, e.kind ≠ .other ∧ (∃ d, f.elements.method? e.callee = some (d, m)) ∧
    ∃ c, f.elements.site? e.site = some (c, site)

theorem at_iff {ptr : Pointer} :
    f.At ptr o ↔ ∃ set, (f.elements.findPointer? ptr).bind f.elements.pts? = some set ∧ o ∈ set := by
  constructor
  · rintro ⟨q, known, set, filled, held⟩
    exact ⟨set, by rw [Elements.findPointer?, Table.find?_eq_some_iff.mpr known]; exact filled, held⟩
  · rintro ⟨set, filled, held⟩
    obtain ⟨q, found, filled⟩ := Option.bind_eq_some_iff.mp filled
    exact ⟨q, Table.find?_eq_some_iff.mp found, set, filled, held⟩

theorem mem_objsAt_var : o ∈ f.objsAt v .var ↔ ∃ c, f.At (.var c v) o := by
  constructor
  · intro listed
    obtain ⟨q, var, member⟩ := List.mem_flatMap.mp listed
    obtain ⟨c, known⟩ := Elements.mem_varsOf.mp var
    split at member
    · next set filled => exact ⟨c, q, known, set, filled, member⟩
    · cases member
  · rintro ⟨c, held⟩
    exact held.mem_objsAt

theorem mem_objsAt : o ∈ f.objsAt v kind ↔ f.LiesAt v kind o := by
  constructor
  · intro listed
    cases kind with
    | var =>
      obtain ⟨c, held⟩ := mem_objsAt_var.mp listed
      exact .var held
    | array =>
      obtain ⟨a, outer, member⟩ := List.mem_flatMap.mp listed
      obtain ⟨c, held⟩ := mem_objsAt_var.mp outer
      split at member
      · next set filled => exact .array held (at_iff.mpr ⟨set, filled, member⟩)
      · cases member
    | field g =>
      obtain ⟨b, outer, member⟩ := List.mem_flatMap.mp listed
      obtain ⟨c, held⟩ := mem_objsAt_var.mp outer
      split at member
      · next set filled => exact .field held (at_iff.mpr ⟨set, filled, member⟩)
      · cases member
  · intro lies
    cases lies with
    | var held => exact held.mem_objsAt
    | array held inside | field held inside =>
      obtain ⟨set, filled, member⟩ := at_iff.mp inside
      exact List.mem_flatMap.mpr ⟨_, held.mem_objsAt, by rw [filled]; exact member⟩

theorem mem_callSitesOf : site ∈ f.callSitesOf m ↔ f.CallsAt m site := by
  unfold callSitesOf CallsAt
  rw [List.mem_filterMap]
  refine exists_congr fun e => and_congr_right fun _ => ?_
  rw [Option.ite_none_right_eq_some, and_assoc]
  simp [Option.map_eq_some_iff]

end Facts

/-- A taint object that comes from a point, whatever its type. -/
def Marks.From (t : Marks) (a : SourcePoint) (o : Obj) : Prop :=
  ∃ i container, t.points.get? i = some a ∧ o.origin = .mock .taint (.index i) container

theorem Marks.point?_eq_some {t : Marks} {a : SourcePoint} {o : Obj} : t.point? o = some a ↔ t.From a o := by
  constructor
  · intro point
    obtain ⟨origin, ty⟩ := o
    cases origin with
    | mock d key container =>
      obtain ⟨taint, point⟩ := Option.ite_none_right_eq_some.mp point
      cases key with
      | index i =>
        obtain rfl : d = .taint := by simpa [Obj.isTaint, Obj.descriptor?] using taint
        exact ⟨i, container, point, rfl⟩
      | _ => cases point
    | _ => cases point
  · rintro ⟨i, container, known, origin⟩
    simpa [point?, Obj.isTaint, Obj.descriptor?, Obj.mockKey?, origin] using known

namespace TaintConfig

variable {c d : TaintConfig} {p : Program} {f : Facts} {marks : Marks} {s : Sink} {site : StmtRef}
  {flow : TaintFlow}

/-- A sink that counts: it is configured, and it is no plain place that is sanitized. -/
def Watches (c : TaintConfig) (m : MethodId) (index : IndexRef) : Prop :=
  ⟨m, index⟩ ∈ c.sinks ∧ (index.kind = .var → ⟨m, index.index⟩ ∉ c.sanitizers)

/-- Taint of the source of a flow arrives at a call of its sink. -/
def Reports (c : TaintConfig) (p : Program) (f : Facts) (marks : Marks) (flow : TaintFlow) : Prop :=
  ∃ m, c.Watches m flow.sink.index ∧
    (f.CallsAt m flow.sink.site ∨ c.callSiteMode = true ∧ f.NamesAt p m flow.sink.site) ∧
    ∃ call v, p.invoke? flow.sink.site = some call ∧ flow.sink.index.index.callVar? call = some v ∧
      ∃ o obj, f.LiesAt v flow.sink.index.kind o ∧ f.obj? o = some obj ∧ marks.From flow.source obj

theorem mem_activeSinks : s ∈ c.activeSinks ↔ c.Watches s.method s.index := by
  simp only [activeSinks, List.mem_filter, Watches, isSanitized]
  refine and_congr_right fun _ => ?_
  simp [imp_iff_not_or]

theorem mem_sinkSites : site ∈ c.sinkSites p f s ↔
    f.CallsAt s.method site ∨ c.callSiteMode = true ∧ f.NamesAt p s.method site := by
  rw [sinkSites, List.mem_append, Facts.mem_callSitesOf]
  refine or_congr_right ?_
  split
  · next mode => simp [mode, Facts.mem_namedSitesOf]
  · next mode => simp [mode]

theorem mem_flowsAt : flow ∈ flowsAt p f marks s site ↔ flow.sink = ⟨site, s.index⟩ ∧
    ∃ call v, p.invoke? site = some call ∧ s.index.index.callVar? call = some v ∧
      ∃ o obj, f.LiesAt v s.index.kind o ∧ f.obj? o = some obj ∧ marks.From flow.source obj := by
  constructor
  · intro listed
    unfold flowsAt at listed
    split at listed
    · cases listed
    · next v found =>
      obtain ⟨call, invoked, var⟩ := Option.bind_eq_some_iff.mp found
      obtain ⟨o, lies, found⟩ := List.mem_filterMap.mp listed
      obtain ⟨a, point, rfl⟩ := Option.map_eq_some_iff.mp found
      obtain ⟨obj, known, point⟩ := Option.bind_eq_some_iff.mp point
      exact ⟨rfl, call, v, invoked, var, o, obj, Facts.mem_objsAt.mp lies, known, Marks.point?_eq_some.mp point⟩
  · rintro ⟨sink, call, v, invoked, var, o, obj, lies, known, source⟩
    obtain ⟨a, _⟩ := flow
    subst sink
    have found : ((p.invoke? site).bind fun call => s.index.index.callVar? call) = some v := by
      rw [invoked]
      exact var
    unfold flowsAt
    rw [found]
    refine List.mem_filterMap.mpr ⟨o, Facts.mem_objsAt.mpr lies, ?_⟩
    rw [known, Option.bind_some, Marks.point?_eq_some.mpr source]
    rfl

theorem mem_flows_iff : flow ∈ c.flows p f marks ↔ c.Reports p f marks flow := by
  simp only [flows, mem_sortedBy, List.mem_eraseDups, List.mem_flatMap, mem_activeSinks, mem_sinkSites,
    mem_flowsAt]
  constructor
  · rintro ⟨s, counts, site, called, sink, arrives⟩
    obtain ⟨a, _⟩ := flow
    subst sink
    exact ⟨s.method, counts, called, arrives⟩
  · rintro ⟨m, counts, called, arrives⟩
    exact ⟨⟨m, flow.sink.index⟩, counts, flow.sink.site, called, rfl, arrives⟩

theorem Reports.mono (reported : c.Reports p f marks flow) (sinks : c.sinks ⊆ d.sinks)
    (sanitizers : d.sanitizers ⊆ c.sanitizers) (mode : c.callSiteMode = true → d.callSiteMode = true) :
    d.Reports p f marks flow := by
  obtain ⟨m, ⟨listed, dirty⟩, called, arrives⟩ := reported
  exact ⟨m, ⟨sinks listed, fun plain clean => dirty plain (sanitizers clean)⟩,
    called.imp_right fun named => ⟨mode named.1, named.2⟩, arrives⟩

/-- Flows into sinks are reported exactly, and each once; watching the calls that name a sink only adds flows,
and more sanitizers only take flows away. -/
theorem flows_exact (c : TaintConfig) (p : Program) (f : Facts) (marks : Marks) :
    (∀ flow, flow ∈ c.flows p f marks ↔ c.Reports p f marks flow) ∧ (c.flows p f marks).Nodup ∧
    c.flows p f marks ⊆ { c with callSiteMode := true }.flows p f marks ∧
    ∀ sanitizers, c.sanitizers ⊆ sanitizers →
      { c with sanitizers := sanitizers }.flows p f marks ⊆ c.flows p f marks := by
  refine ⟨fun flow => mem_flows_iff, ?_, fun flow reported => ?_, fun sanitizers more flow reported => ?_⟩
  · exact (List.mergeSort_perm _ _).nodup_iff.mpr (eraseDups_spec _).2
  · exact mem_flows_iff.mpr ((mem_flows_iff.mp reported).mono (List.Subset.refl _) (List.Subset.refl _)
      fun _ => rfl)
  · exact mem_flows_iff.mpr ((mem_flows_iff.mp reported).mono (List.Subset.refl _) more id)

end TaintConfig

/-- A paper is got and offered to a buyer, but nobody makes a buyer. -/
def kiosk : Program :=
  let p : Program := {}
  let p := p.addClass "Paper" none
  let p := p.addInterface "Buyer" []
  let p := p.addClass "Kiosk" none
  let p := p.addMethod 1 "buy" [.cls 0] .void ⟨false, true, false⟩
  let p := p.addMethod 2 "get" [] (.cls 0) ⟨true, false, false⟩
  let p := p.setBody 1
    { locals := [("paper", .cls 0)], stmts := [.new 0 (.cls 0), .ret (some 0)], handlers := [] }
  let p := p.addMethod 2 "main" [] .void ⟨true, false, false⟩
  let p := p.setBody 2
    { locals := [("paper", .cls 0), ("buyer", .cls 1)]
      stmts := [.invoke ⟨.static, ⟨2, "Paper get()"⟩, none, [], some 1⟩,
        .invoke ⟨.interface, ⟨1, "void buy(Paper)"⟩, some 2, [1], none⟩, .ret none]
      handlers := [] }
  p.setMain 2

def kioskTaint : TaintConfig where
  sources := [.call 1 (.var .result) (.cls 0)]
  sinks := [⟨0, .var (.arg 0)⟩]

def kioskRun : Option (State Chain) :=
  Solver.solve (Chain.setup kiosk (.limited .insensitive)) 100 (Heap.ofProgram kiosk true)
    [.entries (Entries.ofOptions kiosk { implicitEntries := false }), .taint (Taint.ofConfig kioskTaint)]

def kioskFlow : TaintFlow := ⟨.call ⟨2, 0⟩ (.var .result), ⟨⟨2, 1⟩, .var (.arg 0)⟩⟩

def kioskMarks : Marks := (Marks.mark {} kioskFlow.source (.cls 0)).1

/-- The paper is tainted when it is offered, which is seen where the calls are watched that name the sink. -/
theorem TaintConfig.kiosk_flows_exact : ∃ t, kioskRun = some t ∧
    ¬ kioskTaint.Reports kiosk t.toFacts kioskMarks kioskFlow ∧
    { kioskTaint with callSiteMode := true }.Reports kiosk t.toFacts kioskMarks kioskFlow ∧
    { kioskTaint with callSiteMode := true, sanitizers := [⟨0, .arg 0⟩] }.flows kiosk t.toFacts kioskMarks ⊆
      [kioskFlow] := by
  have run : kioskRun.map (fun t => (kioskTaint.flows kiosk t.toFacts kioskMarks,
      { kioskTaint with callSiteMode := true }.flows kiosk t.toFacts kioskMarks)) = some ([], [kioskFlow]) := by
    decide +kernel
  obtain ⟨t, run, same⟩ := Option.map_eq_some_iff.mp run
  obtain ⟨none, one⟩ := Prod.mk.inj same
  obtain ⟨reports, _, _, fewer⟩ :=
    flows_exact { kioskTaint with callSiteMode := true } kiosk t.toFacts kioskMarks
  refine ⟨t, run, fun reported => ?_, (reports _).mp (one ▸ List.mem_singleton_self _), ?_⟩
  · have listed := ((flows_exact kioskTaint kiosk t.toFacts kioskMarks).1 _).mpr reported
    rw [none] at listed
    cases listed
  · have subset := fewer [⟨0, .arg 0⟩] (List.nil_subset _)
    rwa [one] at subset

end PointsTo
