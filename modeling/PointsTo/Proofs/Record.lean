import Mathlib.Data.List.Nodup
import PointsTo.Proofs.Completeness
import PointsTo.Proofs.Silence
import PointsTo.Proofs.Watching

/-!
What a handler is told while facts are found. As long as no object is ever taken away, its record
accounts for the facts: between two steps nothing is left to be told; within a step some events are
owed, and they are told one by one.
-/
namespace PointsTo

variable {f g : Facts} {p : Program} {pick : Event → Option α} {e : Event} {x : Moment σ}

/-- Nothing that `f` has found is missing in `g`. -/
structure Facts.Below (f g : Facts) : Prop extends f.Extends g where
  holds : ∀ q o, f.elements.Holds q o → g.elements.Holds q o

theorem Facts.Below.refl (f : Facts) : f.Below f := ⟨Extends.refl f, fun _ _ held => held⟩

theorem Facts.Below.trans {h : Facts} (first : f.Below g) (second : g.Below h) : f.Below h :=
  ⟨first.toExtends.trans second.toExtends, fun q o held => second.holds q o (first.holds q o held)⟩

theorem Facts.Below.unresolved (below : f.Below g) {c : ContextId} {site : StmtRef} {receiver : Option CsObjId}
    (unresolved : f.Unresolved p c site receiver) : g.Unresolved p c site receiver := by
  cases unresolved with
  | static stmt missing reaches => exact .static stmt missing (below.reaches reaches)
  | on stmt missing based pointer held =>
    exact .on stmt (below.missing missing) based (below.pointers _ _ pointer) (below.holds _ _ held)

theorem State.Quiet.below {σ : Type u} {s t : State σ} (quiet : s.Quiet t) : s.toFacts.Below t.toFacts :=
  ⟨quiet.grown, fun _ _ held => quiet.holds_iff.mpr held⟩

theorem State.marking_below {σ : Type u} (s : State σ) (id : CsMethodId) :
    s.toFacts.Below (s.marking id).toFacts :=
  ⟨(marking_keeps s id).grown, fun _ _ held => held⟩

theorem State.recording_below {σ : Type u} (s : State σ) (e : CallEdge) :
    s.toFacts.Below (s.recording e).toFacts :=
  ⟨(recording_keeps s e).grown, fun _ _ held => held⟩

namespace Event

variable {e : Event}

def delta? (q : PointerId) : Event → Option ObjSet
  | .arrived r delta => if r = q then some delta else none
  | _ => none

def method? : Event → Option MethodId
  | .methodReached m => some m
  | _ => none

def stmt? : Event → Option StmtRef
  | .stmtReached site => some site
  | _ => none

def csMethod? : Event → Option CsMethodId
  | .csMethodReached id => some id
  | _ => none

def call? : Event → Option CallEdge
  | .called e => some e
  | _ => none

theorem delta?_eq_some {q : PointerId} {delta : ObjSet} : e.delta? q = some delta ↔ e = .arrived q delta := by
  cases e with
  | arrived r d =>
    by_cases same : r = q
    · simp [delta?, same]
    · simp [delta?, same]
  | _ => simp [delta?]

theorem method?_eq_some {m : MethodId} : e.method? = some m ↔ e = .methodReached m := by
  cases e <;> simp [method?]

theorem stmt?_eq_some {site : StmtRef} : e.stmt? = some site ↔ e = .stmtReached site := by
  cases e <;> simp [stmt?]

theorem csMethod?_eq_some {id : CsMethodId} : e.csMethod? = some id ↔ e = .csMethodReached id := by
  cases e <;> simp [csMethod?]

theorem call?_eq_some {d : CallEdge} : e.call? = some d ↔ e = .called d := by
  cases e <;> simp [call?]

end Event

def told (pick : Event → Option α) (record : List (Moment σ)) : List α :=
  record.filterMap fun x => pick x.event

theorem told_append (pick : Event → Option α) (first second : List (Moment σ)) :
    told pick (first ++ second) = told pick first ++ told pick second := List.filterMap_append

/-- What the events of a record tell of one kind, with some events that are still owed. -/
def heard (pick : Event → Option α) (record : List (Moment σ)) (owed : List Event) : List α :=
  told pick record ++ owed.filterMap pick

theorem heard_skip (none : pick e = none) (record : List (Moment σ)) (owed : List Event) :
    heard pick record (e :: owed) = heard pick record owed := by
  simp [heard, none]

theorem heard_last {a : α} (picked : pick e = some a) (record : List (Moment σ)) {owed : List Event}
    (last : owed.filterMap pick = []) : heard pick record (e :: owed) = heard pick record owed ++ [a] := by
  simp [heard, picked, last]

def Tells (record : List (Moment σ)) (e : Event) : Prop := ∃ x ∈ record, x.event = e

/-- How a moment fits what was told before. Calls without target are told of before the objects that
they are made on, or the method that they stand in. -/
def Moment.Fits (p : Program) (past : List (Moment σ)) (x : Moment σ) : Prop :=
  match x.event with
  | .started => True
  | .arrived q delta => delta.isEmpty = false ∧ (∀ o ∈ delta, x.facts.elements.Holds q o) ∧
      (∀ old ∈ told (Event.delta? q) past, ∀ o ∈ delta, o ∉ old) ∧
      ∀ o ∈ delta, ∀ c site call v, x.facts.elements.pointer? q = some (.var c v) →
        site.method ∈ told Event.method? past → p.stmt? site = some (.invoke call) → call.base = some v →
        x.facts.Missing p call (some o) → Tells past (.unresolved (some o) c site)
  | .methodReached m => m ∉ told Event.method? past
  | .stmtReached site => site ∉ told Event.stmt? past
  | .csMethodReached id => id ∉ told Event.csMethod? past ∧
      ∃ c m, x.facts.elements.method? id = some (c, m) ∧ m ∈ told Event.method? past ∧
        (∀ entry ∈ p.stmtRefs m, entry.1 ∈ told Event.stmt? past) ∧
        ∀ site call, site.method = m → p.stmt? site = some (.invoke call) →
          x.facts.Missing p call none → Tells past (.unresolved none c site)
  | .called e => e ∉ told Event.call? past ∧ e.callee ∈ x.facts.calls.reachable
  | .unresolved receiver c site => x.facts.Unresolved p c site receiver

theorem Moment.Fits.of_event {past : List (Moment σ)} (fits : x.Fits p past) (event : x.event = e) :
    Moment.Fits p past { x with event := e } := by
  subst event
  exact fits

/-- Every moment of a record fits its past and sees all that was seen before. -/
def Proper (p : Program) (record : List (Moment σ)) : Prop :=
  ∀ past x rest, record = past ++ x :: rest → x.Fits p past ∧ ∀ y ∈ past, y.facts.Below x.facts

theorem proper_nil (p : Program) : Proper p ([] : List (Moment σ)) := by
  intro past x rest split
  simp at split

theorem Proper.snoc {record : List (Moment σ)} (proper : Proper p record) (fits : x.Fits p record)
    (below : ∀ y ∈ record, y.facts.Below x.facts) : Proper p (record ++ [x]) := by
  intro past y rest split
  rcases List.eq_nil_or_concat rest with rfl | ⟨before, last, rfl⟩
  · obtain ⟨rfl, same⟩ := List.append_inj' split rfl
    obtain rfl := List.singleton_inj.mp same
    exact ⟨fits, below⟩
  · have split' : record ++ [x] = (past ++ y :: before) ++ [last] := by simpa using split
    obtain ⟨rfl, _⟩ := List.append_inj' split' rfl
    exact proper past y before rfl

namespace State

variable {σ : Type u}

variable {cx : Setup σ} {s t : State (Watched σ)}

def record (s : State (Watched σ)) : List (Moment σ) := s.handler.2


theorem Murmurs.told {place : ContextId → StmtRef → Prop} {on : CsObjId → Prop}
    (murmurs : s.Murmurs cx.watched place on t) {pick : Event → Option α}
    (deaf : ∀ receiver c site, pick (.unresolved receiver c site) = none) :
    told pick t.record = told pick s.record := by
  induction murmurs with
  | hush hush => exact congrArg (PointsTo.told pick) (congrArg Prod.snd hush.handler)
  | calls => rfl
  | unresolved s =>
    refine (told_append pick s.record _).trans ?_
    simp [PointsTo.told, deaf]
  | trans _ _ first second => exact second.trans first

section Tells

variable {place : ContextId → StmtRef → Prop} {on : CsObjId → Prop} {e : Event} {c : ContextId}
  {site : StmtRef} {call : Invoke} {v : VarId} {o : CsObjId} {delta : ObjSet}

theorem Murmurs.tells (murmurs : s.Murmurs cx.watched place on t) (told : Tells s.record e) :
    Tells t.record e := by
  induction murmurs with
  | @hush s t hush =>
    rw [show t.record = s.record from congrArg Prod.snd hush.handler]
    exact told
  | calls => exact told
  | unresolved => exact told.imp fun x known => ⟨List.mem_append_left _ known.1, known.2⟩
  | trans _ _ first second => exact second (first told)

theorem notify_tells (s : State (Watched σ)) (cx : Setup σ) (e : Event) :
    Tells (s.notify cx.watched e).record e :=
  ⟨_, List.mem_append_right _ List.mem_cons_self, rfl⟩

theorem foldl_tells {α : Type v} {f : State (Watched σ) → α → State (Watched σ)} {items : List α} {a : α}
    (cx : Setup σ) (member : a ∈ items) (each : ∀ t : State (Watched σ), ∀ b ∈ items,
      t.Murmurs cx.watched (fun _ _ => True) (fun _ => True) (f t b))
    (here : ∀ t : State (Watched σ), s.Quiet t → Tells (f t a).record e) :
    Tells (items.foldl f s).record e := by
  obtain ⟨before, after, rfl⟩ := List.append_of_mem member
  rw [List.foldl_append, List.foldl_cons]
  have first := foldl_murmurs before s fun t b earlier => each t b (List.mem_append_left _ earlier)
  have last := foldl_murmurs after (f (before.foldl f s) a) fun t b later =>
    each t b (List.mem_append_right _ (List.mem_cons_of_mem _ later))
  exact last.tells (here _ first.quiet)

theorem callOn_tells (base : PointerId) (missing : s.Missing cx.program call (some o)) :
    Tells (s.callOn cx.watched c base site call o).record (.unresolved (some o) c site) := by
  obtain ⟨v, obj, _, object, real, none⟩ := missing
  obtain ⟨⟨h, id⟩, known, _⟩ := Option.bind_eq_some_iff.mp object
  have notified : s.callOn cx.watched c base site call o =
      s.notify cx.watched (.unresolved (some o) c site) := by
    simp only [callOn, known, object, if_neg real, show cx.watched.program = cx.program from rfl, none]
  rw [notified]
  exact notify_tells s cx _

/-- New objects of a variable are told of wherever a call on them has no target. -/
theorem applying_tells {q : PointerId} (known : s.Knows q) {d : ContextId × Obj}
    (described : s.describe? o = some d) (member : o ∈ delta) (seen : site.method ∈ s.seen)
    (pointer : (s.applying cx.watched q delta).elements.pointer? q = some (.var c v))
    (stmt : cx.program.stmt? site = some (.invoke call)) (based : call.base = some v)
    (missing : (s.applying cx.watched q delta).Missing cx.program call (some o)) :
    Tells (s.applying cx.watched q delta).record (.unresolved (some o) c site) := by
  -- the pointer and the object were what they are before anything was told
  have grown := (applying_murmurs s cx.watched q delta).quiet.grown
  obtain ⟨ptr, pointed⟩ := known
  obtain rfl := Option.some.inj ((grown.pointers _ _ pointed).symm.trans pointer)
  have missing := grown.missing_before described missing
  have accessed : s.Hush (delta.toList.foldl
      (fun t o => t.accessAll cx.program c (s.basedOn cx.program v) o) s) :=
    List.foldlRecOn _ _ (Hush.refl s) fun t hush o _ => hush.trans (accessAll_hush t c _ o)
  have listed : (site, .invoke call) ∈ s.basedOn cx.program v := mem_basedOn.mpr ⟨seen, stmt, based⟩
  have used : s.applying cx.watched q delta = s.useDelta cx.watched c v q delta := by
    simp only [applying, pointed]
  rw [used]
  refine foldl_tells cx listed (fun t entry member => ?_) fun t quiet => ?_
  · obtain ⟨_, there, based⟩ := mem_basedOn.mp member
    obtain ⟨site, stmt⟩ := entry
    cases stmt with
    | invoke call => exact callOnAll_murmurs t q trivial (fun _ _ => trivial) there based
    | _ => exact .hush (Hush.refl t)
  · have known := (accessed.toQuiet.trans quiet).trans (internSite_quiet t c site)
    refine foldl_tells cx member (fun u o _ => callOn_murmurs u q trivial trivial stmt based)
      fun u later => ?_
    exact callOn_tells q ((known.trans later).grown.missing missing)

theorem runAll_tells {m : MethodId} (inside : site.method = m)
    (stmt : cx.program.stmt? site = some (.invoke call)) (missing : s.Missing cx.program call none) :
    Tells ((cx.program.stmtRefs m).foldl (fun t (site, stmt) => t.runStmt cx.watched c site stmt) s).record
      (.unresolved none c site) := by
  refine foldl_tells cx (Program.mem_stmtRefs.mpr ⟨inside, stmt⟩) (fun t entry member => ?_) fun t _ => ?_
  · exact runStmt_murmurs t trivial (Program.mem_stmtRefs.mp member).2
  · obtain ⟨static, lost⟩ := missing
    have notified : t.runStmt cx.watched c site (.invoke call) =
        t.notify cx.watched (.unresolved none c site) := by
      simp only [runStmt, Invoke.isStatic, static, callStatic, show cx.watched.program = cx.program from rfl,
        lost, Option.isNone_none, if_true]
    dsimp only
    rw [notified]
    exact notify_tells t cx _

end Tells

/-- The record accounts for the facts, once the events owed are told. -/
structure Coherent (p : Program) (owed : List Event) (s : State (Watched σ)) : Prop where
  proper : Proper p s.record
  below : ∀ x ∈ s.record, x.facts.Below s.toFacts
  held : ∀ q o, s.Holds q o ↔ ∃ delta ∈ heard (Event.delta? q) s.record owed, o ∈ delta
  methods : heard Event.method? s.record owed = s.seen
  stmts : heard Event.stmt? s.record owed = s.seen.flatMap fun m => (p.stmtRefs m).map Prod.fst
  csMethods : heard Event.csMethod? s.record owed = s.calls.reachable
  calls : heard Event.call? s.record owed = s.calls.edges
  once : s.seen.Nodup ∧ s.calls.reachable.Nodup ∧ s.calls.edges.Nodup
  reached : ∀ m ∈ s.seen, ∃ id ∈ s.calls.reachable, ∃ c, s.elements.method? id = some (c, m)
  enlisted : ∀ e ∈ s.worklist.calls, s.Joins e
  inTime : s.refilter = []

namespace Coherent

variable {p : Program} {owed : List Event} {e : Event}

section Told

variable (coherent : s.Coherent p [])
include coherent

theorem told_method : told Event.method? s.record = s.seen :=
  (List.append_nil _).symm.trans coherent.methods

theorem told_stmt :
    told Event.stmt? s.record = s.seen.flatMap fun m => (p.stmtRefs m).map Prod.fst :=
  (List.append_nil _).symm.trans coherent.stmts

theorem told_csMethod : told Event.csMethod? s.record = s.calls.reachable :=
  (List.append_nil _).symm.trans coherent.csMethods

theorem told_call : told Event.call? s.record = s.calls.edges :=
  (List.append_nil _).symm.trans coherent.calls

end Told

/-- Nothing is told, and nothing happens that would have to be told. -/
theorem quiet (coherent : s.Coherent p owed) (quiet : s.Quiet t) (record : t.record = s.record)
    (enlisted : ∀ e ∈ t.worklist.calls, e ∈ s.worklist.calls ∨ t.Joins e) : t.Coherent p owed := by
  have same : ∀ {α : Type} (pick : Event → Option α), heard pick t.record owed = heard pick s.record owed :=
    fun pick => by rw [record]
  refine ⟨record ▸ coherent.proper, ?_, ?_, ?_, ?_, ?_, ?_, ?_, ?_, ?_, ?_⟩
  · rw [record]
    exact fun x member => (coherent.below x member).trans quiet.below
  · intro q o
    rw [same, quiet.holds_iff]
    exact coherent.held q o
  · rw [same, quiet.seen]
    exact coherent.methods
  · rw [same, quiet.seen]
    exact coherent.stmts
  · rw [same, quiet.calls]
    exact coherent.csMethods
  · rw [same, quiet.calls]
    exact coherent.calls
  · rw [quiet.seen, quiet.calls]
    exact coherent.once
  · rw [quiet.seen, quiet.calls]
    intro m member
    obtain ⟨id, reachable, c, known⟩ := coherent.reached m member
    exact ⟨id, reachable, c, quiet.grown.methods _ _ known⟩
  · exact fun e waiting => (enlisted e waiting).elim
      (fun before => quiet.grown.joins (coherent.enlisted e before)) fun joins => joins
  · exact quiet.refilter.trans coherent.inTime

theorem mute (coherent : s.Coherent p owed) (mute : s.Mute t) : t.Coherent p owed :=
  coherent.quiet mute.toQuiet (congrArg Prod.snd mute.handler) mute.enlisted

theorem tell (coherent : s.Coherent p (e :: owed)) (fits : Moment.Fits p s.record ⟨e, s.toFacts, s.handler.1⟩) :
    (s.notify cx.watched e).Coherent p owed := by
  have quiet := notify_quiet s cx.watched e
  have record : (s.notify cx.watched e).record = s.record ++ [⟨e, s.toFacts, s.handler.1⟩] := rfl
  have same : ∀ {α : Type} (pick : Event → Option α),
      heard pick (s.notify cx.watched e).record owed = heard pick s.record (e :: owed) := by
    intro α pick
    rw [heard, heard, record, told_append, List.append_assoc]
    simp only [told, List.filterMap_cons, List.filterMap_nil]
    cases pick e <;> rfl
  refine ⟨?_, ?_, ?_, ?_, ?_, ?_, ?_, coherent.once, ?_, ?_, coherent.inTime⟩
  · rw [record]
    exact coherent.proper.snoc fits coherent.below
  · rw [record]
    intro x member
    rcases List.mem_append.mp member with before | last
    · exact (coherent.below x before).trans quiet.below
    · rw [List.mem_singleton.mp last]
      exact quiet.below
  · intro q o
    rw [same, quiet.holds_iff]
    exact coherent.held q o
  · rw [same]
    exact coherent.methods
  · rw [same]
    exact coherent.stmts
  · rw [same]
    exact coherent.csMethods
  · rw [same]
    exact coherent.calls
  · exact coherent.reached
  · exact fun d waiting => quiet.grown.joins (coherent.enlisted d waiting)

theorem owe (coherent : s.Coherent p owed) (delta : ∀ q, e.delta? q = none) (method : e.method? = none)
    (stmt : e.stmt? = none) (csMethod : e.csMethod? = none) (call : e.call? = none) :
    s.Coherent p (e :: owed) where
  proper := coherent.proper
  below := coherent.below
  held := fun q o => by
    rw [heard_skip (delta q)]
    exact coherent.held q o
  methods := (heard_skip method _ _).trans coherent.methods
  stmts := (heard_skip stmt _ _).trans coherent.stmts
  csMethods := (heard_skip csMethod _ _).trans coherent.csMethods
  calls := (heard_skip call _ _).trans coherent.calls
  once := coherent.once
  reached := coherent.reached
  enlisted := coherent.enlisted
  inTime := coherent.inTime

theorem murmurs {place : ContextId → StmtRef → Prop} {on : CsObjId → Prop}
    (coherent : s.Coherent cx.program owed) (murmurs : s.Murmurs cx.watched place on t)
    (lacks : ∀ g, s.toFacts.Below g → ∀ receiver c site call, place c site → (∀ o ∈ receiver, on o) →
      cx.program.stmt? site = some (.invoke call) → g.Missing cx.program call receiver →
      g.Unresolved cx.program c site receiver) : t.Coherent cx.program owed := by
  induction murmurs with
  | hush hush => exact coherent.mute hush.toMute
  | calls s kind receiver callee => exact coherent.mute (callTo_mute s _ kind _ _ receiver callee)
  | unresolved s here among stmt missing =>
    refine (coherent.owe (e := .unresolved _ _ _) (fun _ => rfl) rfl rfl rfl rfl).tell ?_
    exact lacks _ (Facts.Below.refl _) _ _ _ _ here among stmt missing
  | trans murmurs _ first second =>
    exact second (first coherent lacks) fun g below => lacks g (murmurs.quiet.below.trans below)

/-- Of a list without repetition some is told and some is owed: what is owed was never told. -/
theorem not_told {pick : Event → Option α} {all : List α} {a : α} (once : all.Nodup)
    (all_heard : heard pick s.record (e :: owed) = all) (picked : pick e = some a) : a ∉ told pick s.record := by
  rw [← all_heard, heard, List.filterMap_cons, picked] at once
  exact fun before => (List.nodup_append.mp once).2.2 a before a List.mem_cons_self rfl

end Coherent

end State

namespace Program

theorem sites_eq (p : Program) (m : MethodId) :
    (p.stmtRefs m).map Prod.fst = (List.range (p.stmts m).length).map fun i => ⟨m, i⟩ := by
  unfold stmtRefs
  rw [List.range_eq_range', ← List.zipIdx_map_snd, List.map_map, List.map_map]
  rfl

theorem sites_nodup (p : Program) {methods : List MethodId} (once : methods.Nodup) :
    (methods.flatMap fun m => (p.stmtRefs m).map Prod.fst).Nodup := by
  rw [List.nodup_flatMap]
  constructor
  · intro m _
    rw [sites_eq]
    exact List.nodup_range.map fun i j same => (StmtRef.mk.inj same).2
  · refine once.imp fun {m n} apart site inFirst inSecond => apart ?_
    dsimp only at inFirst inSecond
    rw [sites_eq, List.mem_map] at inFirst inSecond
    obtain ⟨i, _, rfl⟩ := inFirst
    obtain ⟨j, _, same⟩ := inSecond
    exact (StmtRef.mk.inj same).1.symm

end Program

namespace State.Coherent

variable {σ : Type u} {cx : Setup σ} {s t : State (Watched σ)} {owed : List Event} {m : MethodId} {e : CallEdge}
  {q : PointerId}

theorem heard_register (pick : Event → Option α) (record : List (Moment σ)) (m : MethodId)
    (stmts : List (StmtRef × Stmt)) :
    heard pick record (.methodReached m :: (stmts.map (fun entry => .stmtReached entry.1) ++ owed)) =
      told pick record ++ ((pick (.methodReached m)).toList ++
        (stmts.filterMap (fun entry => pick (.stmtReached entry.1)) ++ owed.filterMap pick)) := by
  rw [heard, List.filterMap_cons, List.filterMap_append, List.filterMap_map]
  cases pick (.methodReached m) <;> rfl

theorem tellStmts {stmts : List (StmtRef × Stmt)}
    (coherent : s.Coherent cx.program (stmts.map (fun entry => .stmtReached entry.1) ++ owed)) :
    (stmts.foldl (fun t (site, _) => t.notify cx.watched (.stmtReached site)) s).Coherent cx.program owed := by
  induction stmts generalizing s with
  | nil => exact coherent
  | cons entry rest ih =>
    refine ih (coherent.tell ?_)
    exact not_told (cx.program.sites_nodup coherent.once.1) coherent.stmts rfl

theorem registerMethod (coherent : s.Coherent cx.program owed)
    (reachable : ∃ id ∈ s.calls.reachable, ∃ c, s.elements.method? id = some (c, m))
    (methods : owed.filterMap Event.method? = []) (stmts : owed.filterMap Event.stmt? = []) :
    (s.registerMethod cx.watched m).Coherent cx.program owed ∧
      m ∈ (s.registerMethod cx.watched m).seen ∧
      s.toFacts.Below (s.registerMethod cx.watched m).toFacts := by
  unfold State.registerMethod
  split
  · next known => exact ⟨coherent, List.contains_iff_mem.mp known, Facts.Below.refl _⟩
  · next new =>
    have fresh : m ∉ s.seen := fun member => new (List.contains_iff_mem.mpr member)
    -- as soon as the method counts as seen, it is owed with all its statements
    have owing : State.Coherent cx.program (.methodReached m ::
        ((cx.program.stmtRefs m).map (fun entry => .stmtReached entry.1) ++ owed))
        { s with seen := s.seen ++ [m] } := by
      refine { coherent with
        held := fun q o => (coherent.held q o).trans ?_, methods := ?_, stmts := ?_, csMethods := ?_
        calls := ?_, once := ⟨?_, coherent.once.2⟩, reached := ?_ }
      · change _ ↔ ∃ delta ∈ heard _ s.record _, _
        rw [heard_register]
        simp [heard, Event.delta?]
      · change heard _ s.record _ = s.seen ++ [m]
        rw [heard_register, ← coherent.methods]
        simp [heard, Event.method?, methods]
      · change heard _ s.record _ = (s.seen ++ [m]).flatMap _
        rw [heard_register, List.flatMap_append, ← coherent.stmts]
        simp [heard, Event.stmt?, stmts]
      · change heard _ s.record _ = s.calls.reachable
        rw [heard_register, ← coherent.csMethods]
        simp [heard, Event.csMethod?]
      · change heard _ s.record _ = s.calls.edges
        rw [heard_register, ← coherent.calls]
        simp [heard, Event.call?]
      · exact coherent.once.1.append (List.nodup_singleton m) (by simpa using fresh)
      · intro n member
        rcases List.mem_append.mp member with before | last
        · exact coherent.reached n before
        · rw [List.mem_singleton.mp last]
          exact reachable
    have quiet := Quiet.trans (notify_quiet { s with seen := s.seen ++ [m] } cx.watched (.methodReached m))
      (List.foldlRecOn (motive := State.Quiet _) (cx.program.stmtRefs m) _ (Quiet.refl _)
        fun t before entry _ => before.trans (notify_quiet t cx.watched (.stmtReached entry.1)))
    refine ⟨(owing.tell (not_told owing.once.1 owing.methods rfl)).tellStmts, ?_, quiet.below⟩
    have last : m ∈ s.seen ++ [m] := List.mem_append_right _ (List.mem_singleton.mpr rfl)
    exact (congrArg (m ∈ ·) quiet.seen).mpr last

theorem told_seen (coherent : s.Coherent cx.program owed) (methods : owed.filterMap Event.method? = [])
    (stmts : owed.filterMap Event.stmt? = []) (seen : m ∈ s.seen) :
    m ∈ told Event.method? s.record ∧
      ∀ entry ∈ cx.program.stmtRefs m, entry.1 ∈ told Event.stmt? s.record := by
  have all := coherent.methods
  have every := coherent.stmts
  rw [heard, methods, List.append_nil] at all
  rw [heard, stmts, List.append_nil] at every
  rw [all, every]
  exact ⟨seen, fun entry member => List.mem_flatMap.mpr ⟨m, seen, List.mem_map_of_mem member⟩⟩

/-- A call graph that grows by what is owed with it. -/
theorem graphing {x : Event} {calls : CallGraph} (coherent : s.Coherent cx.program owed)
    (below : s.toFacts.Below { s.toFacts with calls })
    (skips : x.method? = none ∧ x.stmt? = none ∧ ∀ q, x.delta? q = none)
    (csMethods : heard Event.csMethod? s.record (x :: owed) = calls.reachable)
    (edges : heard Event.call? s.record (x :: owed) = calls.edges)
    (once : calls.reachable.Nodup ∧ calls.edges.Nodup) :
    Coherent cx.program (x :: owed) { s with calls } := by
  refine ⟨coherent.proper, fun y member => (coherent.below y member).trans below, fun q o => ?_,
    (heard_skip skips.1 _ _).trans coherent.methods, (heard_skip skips.2.1 _ _).trans coherent.stmts, csMethods,
    edges, ⟨coherent.once.1, once⟩, fun m seen => ?_, coherent.enlisted, coherent.inTime⟩
  · rw [heard_skip (skips.2.2 q)]
    exact coherent.held q o
  · obtain ⟨old, reachable, known⟩ := coherent.reached m seen
    exact ⟨old, below.reachable old reachable, known⟩

theorem marking {id : CsMethodId} (coherent : s.Coherent cx.program owed)
    (csMethods : owed.filterMap Event.csMethod? = []) (new : id ∉ s.calls.reachable) :
    (s.marking id).Coherent cx.program (.csMethodReached id :: owed) := by
  have marked := ((CallGraph.addReachable_cases s.calls id).resolve_left fun old => new old.1).2
  refine coherent.graphing (marking_below s id) ⟨rfl, rfl, fun _ => rfl⟩ ?_ ?_ ?_ <;> rw [marked]
  · rw [heard_last (rfl : Event.csMethod? _ = some id) _ csMethods, coherent.csMethods]
  · exact (heard_skip rfl _ _).trans coherent.calls
  · exact ⟨coherent.once.2.1.append (List.nodup_singleton id) (by simpa using new), coherent.once.2.2⟩

theorem reach {id : CsMethodId} (coherent : s.Coherent cx.program owed)
    (known : ∃ x, s.elements.method? id = some x) (methods : owed.filterMap Event.method? = [])
    (stmts : owed.filterMap Event.stmt? = []) (csMethods : owed.filterMap Event.csMethod? = []) :
    (s.reach cx.watched id).Coherent cx.program owed ∧
      id ∈ (s.reach cx.watched id).calls.reachable ∧
      s.toFacts.Below (s.reach cx.watched id).toFacts := by
  by_cases before : id ∈ s.calls.reachable
  · rw [reach_known before]
    exact ⟨coherent, before, Facts.Below.refl _⟩
  obtain ⟨⟨c, m⟩, known⟩ := known
  rw [reach_new before known, show cx.watched.program = cx.program from rfl]
  have mark : id ∈ (s.marking id).calls.reachable := mem_marking.mpr (Or.inr rfl)
  have below := marking_below s id
  obtain ⟨coherent₁, seen, below₁⟩ := (coherent.marking csMethods before).registerMethod
    ⟨id, mark, c, known⟩ methods stmts
  generalize (s.marking id).registerMethod cx.watched m = s₁ at coherent₁ seen below₁ ⊢
  have murmurs : s₁.Murmurs cx.watched _ _ ((cx.program.stmtRefs m).foldl
      (fun t (site, stmt) => t.runStmt cx.watched c site stmt) s₁) := runAll_murmurs s₁ cx.watched c m
  have quiet := murmurs.quiet
  have coherent₂ := coherent₁.murmurs murmurs <| by
    rintro g later (_ | o) d site call ⟨rfl, rfl⟩ among stmt missing
    · exact .static stmt missing
        ⟨id, (below₁.trans later).reachable id mark, (below₁.trans later).methods _ _ known⟩
    · exact (among o rfl).elim
  have warned : ∀ site call, site.method = m → cx.program.stmt? site = some (.invoke call) →
      s₁.Missing cx.program call none → Tells _ (.unresolved none c site) :=
    fun site call inside stmt missing => runAll_tells (c := c) inside stmt missing
  generalize (cx.program.stmtRefs m).foldl _ s₁ = s₂ at quiet coherent₂ warned ⊢
  have whole := (below.trans below₁).trans quiet.below
  obtain ⟨method, each⟩ := coherent₂.told_seen methods stmts (quiet.seen ▸ seen)
  refine ⟨coherent₂.tell ⟨not_told coherent₂.once.2.1 coherent₂.csMethods rfl, c, m,
    whole.methods _ _ known, method, each, warned⟩, ?_, whole.trans (notify_quiet s₂ _ _).below⟩
  exact (below₁.trans quiet.below).reachable id mark

theorem recording (coherent : s.Coherent cx.program []) (new : e ∉ s.calls.edges) :
    (s.recording e).Coherent cx.program [.called e] := by
  have recorded := ((CallGraph.addEdge_cases s.calls e).resolve_left fun old => new old.1).2
  refine coherent.graphing (recording_below s e) ⟨rfl, rfl, fun _ => rfl⟩ ?_ ?_ ?_ <;> rw [recorded]
  · exact (heard_skip rfl _ _).trans coherent.csMethods
  · rw [heard_last (rfl : Event.call? _ = some e) _ rfl, coherent.calls]
  · exact ⟨coherent.once.2.1, coherent.once.2.2.append (List.nodup_singleton e) (by simpa using new)⟩

theorem processCall (coherent : s.Coherent cx.program []) (known : ∃ x, s.elements.method? e.callee = some x) :
    (s.processCall cx.watched e).Coherent cx.program [] ∧
      s.toFacts.Below (s.processCall cx.watched e).toFacts := by
  by_cases before : e ∈ s.calls.edges
  · rw [processCall_known before]
    exact ⟨coherent, Facts.Below.refl _⟩
  rw [processCall_new before]
  have below := recording_below s e
  obtain ⟨coherent₁, reachable, below₁⟩ := (coherent.recording before).reach known rfl rfl rfl
  have passed := passing_hush ((s.recording e).reach cx.watched e.callee) cx.watched e
  have coherent₂ := coherent₁.mute passed.toMute
  generalize ((s.recording e).reach cx.watched e.callee).passing cx.watched e = s₂ at passed coherent₂ ⊢
  refine ⟨coherent₂.tell ⟨not_told coherent₂.once.2.2 coherent₂.calls rfl, ?_⟩,
    ((below.trans below₁).trans passed.below).trans (notify_quiet s₂ _ _).below⟩
  exact passed.grown.reachable _ reachable

theorem filled {set : ObjSet} (coherent : s.Coherent cx.program []) (known : ∀ o ∈ set, s.Knows q) :
    (s.filled q set).Coherent cx.program [.arrived q (s.news q set)] := by
  have below : s.toFacts.Below (s.filled q set).toFacts :=
    ⟨filled_grown s q set, fun _ _ held => (holds_filled known).mpr (Or.inl held)⟩
  refine { coherent with
    below := fun x member => (coherent.below x member).trans below, held := fun r o => ?_ }
  rw [holds_filled known, coherent.held r o]
  change _ ↔ ∃ delta ∈ heard _ s.record _, _
  by_cases same : r = q
  · subst same
    rw [heard_last (rfl.trans (if_pos rfl) : Event.delta? r (.arrived r (s.news r set)) = _) _ rfl]
    constructor
    · rintro (⟨delta, told, member⟩ | ⟨_, admitted⟩)
      · exact ⟨delta, List.mem_append_left _ told, member⟩
      · by_cases before : s.Holds r o
        · obtain ⟨delta, told, member⟩ := (coherent.held r o).mp before
          exact ⟨delta, List.mem_append_left _ told, member⟩
        · exact ⟨_, List.mem_append_right _ (List.mem_singleton.mpr rfl), mem_news.mpr ⟨admitted, before⟩⟩
    · rintro ⟨delta, told, member⟩
      rcases List.mem_append.mp told with before | last
      · exact Or.inl ⟨delta, before, member⟩
      · rw [List.mem_singleton.mp last] at member
        exact Or.inr ⟨rfl, (mem_news.mp member).1⟩
  · rw [heard_skip (rfl.trans (if_neg (Ne.symm same)) : Event.delta? r (.arrived q (s.news q set)) = _)]
    simp [same]

theorem processPoints {set : ObjSet} (coherent : s.Coherent cx.program [])
    (handles : ∀ o ∈ set, s.Knows q ∧ ∃ d, s.describe? o = some d) :
    (s.processPoints cx.watched q set).Coherent cx.program [] ∧
      s.toFacts.Below (s.processPoints cx.watched q set).toFacts := by
  have known : ∀ o ∈ set, s.Knows q := fun o member => (handles o member).1
  have below : s.toFacts.Below (s.filled q set).toFacts :=
    ⟨filled_grown s q set, fun _ _ held => (holds_filled known).mpr (Or.inl held)⟩
  have owing := coherent.filled known
  rw [processPoints_eq, show cx.watched.program = cx.program from rfl]
  split
  · next none =>
    refine ⟨{ owing with held := fun r o => ?_ }, below⟩
    -- no object is new, so there is nothing to tell
    rw [holds_filled known]
    refine Iff.trans ?_ (coherent.held r o)
    refine ⟨fun held => held.elim (fun before => before) ?_, Or.inl⟩
    rintro ⟨rfl, admitted⟩
    by_contra before
    exact ObjSet.isEmpty_iff.mp none o (mem_news.mpr ⟨admitted, before⟩)
  · next some_ =>
    have sent := sendAll_hush (p := cx.program) (s.filled q set) q (s.news q set)
    have used := applying_murmurs
      ((s.filled q set).sendAll cx.program q (s.news q set)) cx.watched q (s.news q set)
    have coherent₂ := (owing.mute sent.toMute).murmurs used <| by
      rintro g later (_ | o) d site call ⟨v, _, pointer, _, there, based⟩ among stmt missing
      · cases there.symm.trans stmt
        cases missing.1.symm.trans based
      · cases there.symm.trans stmt
        refine .on stmt missing based (later.pointers _ _ pointer) (later.holds q o (sent.below.holds q o ?_))
        exact (holds_filled known).mpr (Or.inr ⟨rfl, (mem_news.mp (among o rfl)).1⟩)
    have quiet := sent.toQuiet.trans used.quiet
    have same : told (Event.delta? q) _ = told (Event.delta? q) s.record :=
      (used.told fun _ _ _ => rfl).trans (congrArg (told _) (congrArg Prod.snd sent.handler))
    generalize result : ((s.filled q set).sendAll cx.program q (s.news q set)).applying cx.watched q
      (s.news q set) = s₂ at coherent₂ quiet same ⊢
    have owed : s.news q set ∈ heard (Event.delta? q) s₂.record [.arrived q (s.news q set)] := by
      rw [heard_last (rfl.trans (if_pos rfl) : Event.delta? q (.arrived q (s.news q set)) = _) _ rfl]
      exact List.mem_append_right _ (List.mem_singleton.mpr rfl)
    refine ⟨coherent₂.tell ⟨by simpa using some_, fun o member => ?_, fun old before o member inOld => ?_,
      fun o new c site call v pointer method => ?_⟩, (below.trans quiet.below).trans (notify_quiet s₂ _ _).below⟩
    · exact (coherent₂.held q o).mpr ⟨_, owed, member⟩
    · -- what was told before was held before, and only what was not held is new
      refine (mem_news.mp member).2 ((coherent.held q o).mpr ⟨old, ?_, inOld⟩)
      exact List.mem_append_left _ (same ▸ before)
    · have seen : told Event.method? s₂.record = s₂.seen := (List.append_nil _).symm.trans coherent₂.methods
      rw [seen, quiet.seen] at method
      obtain ⟨⟨ptr, pointed⟩, d, described⟩ := handles o (subset_of_admitted (mem_news.mp new).1)
      have grown := below.toExtends.trans sent.grown
      subst result
      exact applying_tells ⟨ptr, grown.pointers _ _ pointed⟩ (grown.describe? described) new
        (sent.seen ▸ method) pointer

theorem noting (coherent : s.Coherent cx.program []) : (s.noting m).Coherent cx.program [] := by
  have below : s.toFacts.Below (s.noting m).toFacts :=
    ⟨(noting_keeps s m).grown, fun _ _ held => held⟩
  obtain ⟨reachable, edges⟩ := calls_noting (s := s) m
  refine ⟨coherent.proper, fun x member => (coherent.below x member).trans below, coherent.held,
    coherent.methods, coherent.stmts, ?_, ?_, ?_, fun n seen => ?_, fun e waiting => ?_, coherent.inTime⟩
  · rw [reachable]
    exact coherent.csMethods
  · rw [edges]
    exact coherent.calls
  · rw [reachable, edges]
    exact coherent.once
  · obtain ⟨id, before, c, known⟩ := coherent.reached n seen
    exact ⟨id, reachable ▸ before, c, below.methods _ _ known⟩
  · exact below.joins (coherent.enlisted e waiting)

theorem attaching (coherent : s.Coherent cx.program []) (q : PointerId) (keep : Obj → Bool) :
    (s.attaching q keep).Coherent cx.program [] ∧ s.toFacts.Below (s.attaching q keep).toFacts := by
  have same : ∀ r o, (s.attaching q keep).Holds r o ↔ s.Holds r o := by
    intro r o
    unfold State.Holds Elements.Holds
    rw [show (s.attaching q keep).elements.pts? r = _ from Elements.pts?_addFilter _ _ _ _]
  have below : s.toFacts.Below (s.attaching q keep).toFacts :=
    ⟨{ Facts.Extends.refl s.toFacts with }, fun r o held => (same r o).mpr held⟩
  refine ⟨{ coherent with
    below := fun x member => (coherent.below x member).trans below
    held := fun r o => (same r o).trans (coherent.held r o) }, below⟩

end State.Coherent

/-- A filter comes to its pointer before any object does. -/
def Command.InTime (s : State σ) : Command → Prop
  | .addFilter pointer _ =>
    ∀ pts ∈ (s.resolvePointer pointer).1.elements.pts? (s.resolvePointer pointer).2, pts.isEmpty = true
  | _ => True

instance (s : State σ) (c : Command) : Decidable (c.InTime s) :=
  match c with
  | .addFilter pointer _ => inferInstanceAs (Decidable (∀ pts ∈ (s.resolvePointer pointer).1.elements.pts?
      (s.resolvePointer pointer).2, pts.isEmpty = true))
  | .addPointsTo _ _ | .addEntryPoint _ | .addFlow _ _ _ | .addCall _ _ _ _ _ | .propagate _ =>
    isTrue trivial

theorem Command.InTime.popping {s : State σ} {c : Command} (inTime : c.InTime s) (rest : List Command) :
    c.InTime (s.popping rest) := by
  cases c with
  | addFilter pointer keep =>
    cases pointer with
    | field base f => cases base <;> exact inTime
    | element array => cases array <;> exact inTime
    | _ => exact inTime
  | _ => exact trivial

namespace State.Coherent

variable {σ : Type u} {cx : Setup σ} {s : State (Watched σ)}

theorem apply {c : Command} (coherent : s.Coherent cx.program []) (inTime : c.InTime s) :
    (s.apply cx.watched c).Coherent cx.program [] ∧ s.toFacts.Below (s.apply cx.watched c).toFacts := by
  have mutely : s.Mute (s.apply cx.watched c) → (s.apply cx.watched c).Coherent cx.program [] ∧
      s.toFacts.Below (s.apply cx.watched c).toFacts :=
    fun mute => ⟨coherent.mute mute, mute.below⟩
  cases c with
  | addEntryPoint entry =>
    have noted : s.toFacts.Below (s.noting entry.method).toFacts :=
      ⟨(noting_keeps s entry.method).grown, fun _ _ held => held⟩
    obtain ⟨coherent₁, _, below⟩ := coherent.noting.reach
      ⟨_, Table.get?_intern_self s.elements.methods (ContextTable.emptyId, entry.method)⟩ rfl rfl rfl
    have seeded := enter_hush s cx.watched entry
    exact ⟨coherent₁.mute seeded.toMute, (noted.trans below).trans seeded.below⟩
  | addFilter pointer keep =>
    have resolved := resolvePointer_hush s pointer
    obtain ⟨coherent₁, below⟩ := (coherent.mute resolved.toMute).attaching
      (s.resolvePointer pointer).2 keep
    have same : s.apply cx.watched (.addFilter pointer keep) =
        (s.resolvePointer pointer).1.attaching (s.resolvePointer pointer).2 keep := by
      simp only [State.apply, Elements.pts?_addFilter]
      cases held : (s.resolvePointer pointer).1.elements.pts? (s.resolvePointer pointer).2 with
      | none => rfl
      | some pts => exact if_pos (inTime pts held)
    rw [same]
    exact ⟨coherent₁, resolved.below.trans below⟩
  | _ => exact mutely (apply_mute s _ _ (by simp) (by simp))

/-- Where every filter came in time and nobody takes objects away, the end of a phase is quiet. -/
theorem endPhase (coherent : s.Coherent cx.program [])
    (nothing : (cx.handlers.phaseEnd s.trimmed.1 s.trimmed.2 s.handler.1).removals = []) :
    (s.endPhase cx.watched).Coherent cx.program [] ∧ s.toFacts.Below (s.endPhase cx.watched).toFacts := by
  have trimmed : s.trimmed = (s.toFacts, 0) := by
    simp [State.trimmed, State.lateRemovals, coherent.inTime, Facts.removeAll]
  obtain ⟨created, facts⟩ := endPhase_facts s cx.watched nothing
  rw [trimmed] at facts
  have quiet : s.Quiet (s.endPhase cx.watched) := by
    refine ⟨?_, fun _ => ?_, fun _ => ?_, ?_, rfl, coherent.inTime.symm, fun _ _ known => known,
      fun _ known => known, fun _ _ known => Or.inl ?_, fun _ known => List.mem_append_left _ known⟩
    · rw [facts]
      exact { Facts.Extends.refl s.toFacts with objects := Table.le_internAll _ _ }
    all_goals simp_all
  exact ⟨coherent.quiet quiet rfl fun _ waiting => Or.inl waiting, quiet.below⟩

theorem start (cx : Setup σ) (heap : Heap) (handler : σ) :
    (Solver.start cx.watched heap (handler, [])).Coherent cx.program [] := by
  have blank : State.Coherent cx.program [] ({ heap, handler := (handler, []) } : State (Watched σ)) := by
    refine ⟨proper_nil _, fun _ member => absurd member List.not_mem_nil, fun q o => ?_, rfl, rfl, rfl,
      rfl, ⟨List.nodup_nil, List.nodup_nil, List.nodup_nil⟩, fun _ member => absurd member List.not_mem_nil,
      fun _ member => absurd member List.not_mem_nil, rfl⟩
    constructor
    · rintro ⟨set, found, _⟩
      simp [Elements.pts?] at found
    · rintro ⟨delta, member, _⟩
      cases member
  exact (blank.owe (e := .started) (fun _ => rfl) rfl rfl rfl rfl).tell trivial

end State.Coherent

end PointsTo
