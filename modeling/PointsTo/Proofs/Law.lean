import PointsTo.Proofs.Delivery
import PointsTo.Proofs.Naming

/-!
What every state of a run satisfies. A law is a set of facts closed under the inclusion rules; a lawful
state has a name for everything and only facts of the law, and meets variables where their method is
known. Handlers keep to a contract: they remember handles that exist and give commands that the law
allows.
-/
namespace PointsTo

variable {law : Law} {p : Program} {x y : Cell}

namespace Body

def mentioned (b : Body) : List VarId :=
  b.this.toList ++ b.params ++ b.returns ++ b.handlers.map CatchHandler.var ++
    b.stmts.flatMap fun s => s.uses ++ s.target?.toList

end Body

namespace Program

variable {p : Program} {m : MethodId} {v : VarId} {site : StmtRef} {stmt : Stmt}

def Mentions (p : Program) (m : MethodId) (v : VarId) : Prop :=
  ∃ body, p.body? m = some body ∧ v ∈ body.mentioned

/-- A body mentions no variables but those that are declared for its method. -/
def Scoped (p : Program) : Prop :=
  ∀ m body, p.body? m = some body → ∀ v ∈ body.mentioned, (p.vars[v]?).map VarDecl.method = some m

instance (p : Program) : Decidable p.Scoped :=
  decidable_of_iff (∀ m < p.methods.size, ∀ body ∈ p.body? m, ∀ v ∈ body.mentioned,
    (p.vars[v]?).map VarDecl.method = some m) <| by
    constructor
    · intro bounded m body code
      by_cases inside : m < p.methods.size
      · exact bounded m inside body code
      · simp [body?, Array.getElem?_eq_none (Nat.le_of_not_lt inside)] at code
    · exact fun declared m _ body code => declared m body code

theorem Scoped.same (declared : p.Scoped) {n : MethodId} (first : p.Mentions m v) (second : p.Mentions n v) :
    m = n := by
  obtain ⟨body, code, member⟩ := first
  obtain ⟨body', code', member'⟩ := second
  have owner := declared m body code v member
  rw [declared n body' code' v member'] at owner
  exact (Option.some.inj owner).symm

theorem mentions_of_stmt (known : p.stmt? site = some stmt) (used : v ∈ stmt.uses ∨ stmt.target? = some v) :
    p.Mentions site.method v := by
  unfold stmt? stmts at known
  cases code : p.body? site.method with
  | none => simp [code] at known
  | some body =>
    rw [code] at known
    refine ⟨body, code, List.mem_append_right _ (List.mem_flatMap.mpr ⟨stmt, ?_, ?_⟩)⟩
    · exact List.mem_of_getElem? known
    · rcases used with read | written
      · exact List.mem_append_left _ read
      · exact List.mem_append_right _ (by rw [written]; exact List.mem_singleton.mpr rfl)

theorem mem_stmtRefs : (site, stmt) ∈ p.stmtRefs m ↔ site.method = m ∧ p.stmt? site = some stmt := by
  obtain ⟨n, index⟩ := site
  simp only [stmtRefs, List.mem_map, List.mem_zipIdx_iff_getElem?, Prod.mk.injEq, StmtRef.mk.injEq,
    stmt?]
  constructor
  · rintro ⟨⟨s, i⟩, found, ⟨rfl, rfl⟩, rfl⟩
    exact ⟨rfl, found⟩
  · rintro ⟨rfl, found⟩
    exact ⟨(stmt, index), found, ⟨rfl, rfl⟩, rfl⟩

end Program

/-- A law: the facts that may come up. Methods may be excused from being known where their variables
are met, but what lies there then was injected. -/
structure Law where
  holds : Fact → Prop
  excused : Frame → MethodId → Prop := fun _ _ => False
  injected : Fact → Prop := fun _ => False
  /-- Filters may keep objects away, and edges may turn them into others. -/
  meddles : Prop := False
  /-- The edges that handlers may ask for. -/
  edges : FlowLabel → Cell → Cell → Prop := fun _ _ _ => False

/-- Nothing that may lie at `x` leaves the law when it crosses an edge to `y`. -/
def Law.Allows (law : Law) (p : Program) (x y : Cell) : FlowLabel → Prop
  | .plain .thisPassing => True
  | .cast ty => ∀ i, p.isSubtype i.obj.ty ty = true → law.holds (.points x i) → law.holds (.points y i)
  | .other info =>
    match info.transfer with
    | none => ∀ i, law.holds (.points x i) → law.holds (.points y i)
    | some t => law.meddles ∧ ∀ c o d o', t c o = some (d, o') → d = ContextTable.emptyId ∧
        ∀ frame, law.holds (.points x ⟨frame, o⟩) → law.holds (.points y ⟨[], o'⟩)
  | .plain _ => ∀ i, law.holds (.points x i) → law.holds (.points y i)

theorem allows_plain {kind : FlowKind} (plain : kind ≠ .thisPassing)
    (moves : ∀ i, law.holds (.points x i) → law.holds (.points y i)) : law.Allows p x y (.plain kind) := by
  cases kind <;> first | exact absurd rfl plain | exact moves

def Law.Flows (law : Law) (p : Program) (label : FlowLabel) (x y : Cell) : Prop :=
  FlowRule p law.holds label x y ∨ law.edges label x y

theorem FlowRule.allows {sel : Selector} {rules : HeapRules} (closed : Closed (Rule p sel rules) law.holds)
    {label : FlowLabel} (flows : FlowRule p law.holds label x y) : law.Allows p x y label := by
  cases flows with
  | @move c site stmt _ _ known moves reached =>
    exact allows_plain stmt.flowKind_plain fun _ there => closed.two (Rule.move known moves) reached there
  | cast stmt reached => exact fun _ fits there => closed.two (Rule.cast stmt fits) reached there
  | @access c site stmt _ _ _ _ known on accesses reached based =>
    exact allows_plain stmt.flowKind_plain fun _ there =>
      closed.three (Rule.access known on accesses) reached based there
  | pass _ => trivial
  | param passes calls code pair called =>
    exact fun _ there => closed.two (Rule.param passes calls code pair) called there
  | ret passes calls code answer returns called =>
    exact fun _ there => closed.two (Rule.ret passes calls code answer returns) called there

namespace Facts

variable {f g : Facts} {c : ContextId} {m : MethodId} {law : Law}

def Interned (f : Facts) (c : ContextId) (m : MethodId) : Prop :=
  ∃ id, f.elements.method? id = some (c, m)

theorem Extends.interned (grown : f.Extends g) (known : f.Interned c m) : g.Interned c m :=
  known.imp fun _ before => grown.methods _ _ before

/-- A method is known in a context, or excused there. -/
def Placed (f : Facts) (law : Law) (c : ContextId) (m : MethodId) : Prop :=
  f.Interned c m ∨ ∃ frame, f.FrameOf c frame ∧ law.excused frame m

theorem Extends.placed (grown : f.Extends g) (known : f.Placed law c m) : g.Placed law c m := by
  rcases known with interned | ⟨frame, named, excused⟩
  · exact Or.inl (grown.interned interned)
  · exact Or.inr ⟨frame, grown.frameOf named, excused⟩

def ObjRefIs (f : Facts) : ObjRef → Item → Prop
  | .interned o, i => f.ItemOf o i
  | .described c o, i => f.FrameOf c [] ∧ i = ⟨[], o⟩

def PointerRefIs (f : Facts) : PointerRef → Cell → Prop
  | .var c v, .var frame w => f.FrameOf c frame ∧ v = w
  | .field r g, .field i h => f.ObjRefIs r i ∧ g = h
  | .element r, .element i => f.ObjRefIs r i
  | .static g, .static h => g = h
  | _, _ => False

theorem Extends.objRefIs (grown : f.Extends g) {r : ObjRef} {i : Item} (named : f.ObjRefIs r i) :
    g.ObjRefIs r i := by
  cases r with
  | interned o => exact grown.itemOf named
  | described c o => exact ⟨grown.frameOf named.1, named.2⟩

theorem Extends.pointerRefIs (grown : f.Extends g) {r : PointerRef} {x : Cell} (named : f.PointerRefIs r x) :
    g.PointerRefIs r x := by
  cases r <;> cases x <;> first | exact named.elim | skip
  · exact ⟨grown.frameOf named.1, named.2⟩
  · exact ⟨grown.objRefIs named.1, named.2⟩
  · exact grown.objRefIs named
  · exact named

/-- Nothing escapes the law when the command is carried out. -/
def Permits (f : Facts) (p : Program) (sel : Selector) (law : Law) : Command → Prop
  | .addPointsTo pointer objs => ∃ x, f.PointerRefIs pointer x ∧
      (∀ r ∈ objs, ∃ i, f.ObjRefIs r i ∧ law.holds (.points x i)) ∧
      ∀ c v, pointer = .var c v → (∀ m, p.Mentions m v → f.Interned c m) ∨
        ((∀ m, p.Mentions m v → f.Placed law c m) ∧
          ∀ r ∈ objs, ∃ i, f.ObjRefIs r i ∧ law.injected (.points x i))
  | .addEntryPoint entry => ∀ x, entry.Gives p x → law.holds x
  | .addFlow label source target => ∃ x y, f.PointerRefIs source x ∧ f.PointerRefIs target y ∧
      law.Allows p x y label ∧ law.edges label x y ∧
      (∀ c v, source = .var c v → ∀ m, p.Mentions m v → f.Interned c m) ∧
      ∀ c v, target = .var c v → ∀ m, p.Mentions m v → f.Interned c m
  | .addCall kind context site callee none => ∃ c, f.FrameOf context c ∧ f.Interned context site.method ∧
      law.holds (.called kind c site (sel.calleeFrame p c site none callee) callee)
  | .addCall kind context site callee (some r) => ∃ c i, f.FrameOf context c ∧
      f.Interned context site.method ∧ f.ObjRefIs r i ∧
      law.holds (.called kind c site (sel.calleeFrame p c site (some i) callee) callee) ∧
      ∀ this, p.this? callee = some this →
        law.holds (.points (.var (sel.calleeFrame p c site (some i) callee) this) i)
  | .addFilter pointer _ => law.meddles ∧ (∃ x, f.PointerRefIs pointer x) ∧
      ∀ c v, pointer = .var c v → ∀ m, p.Mentions m v → f.Interned c m
  | .propagate _ => False

theorem Extends.permits (grown : f.Extends g) {p : Program} {sel : Selector} {c : Command}
    (permitted : f.Permits p sel law c) : g.Permits p sel law c := by
  cases c with
  | addPointsTo pointer objs =>
    obtain ⟨x, named, items, places⟩ := permitted
    refine ⟨x, grown.pointerRefIs named, fun r member => ?_, fun c v same => ?_⟩
    · obtain ⟨i, item, inLaw⟩ := items r member
      exact ⟨i, grown.objRefIs item, inLaw⟩
    · rcases places c v same with known | ⟨placed, injected⟩
      · exact Or.inl fun m mentions => grown.interned (known m mentions)
      · refine Or.inr ⟨fun m mentions => grown.placed (placed m mentions), fun r member => ?_⟩
        obtain ⟨i, item, given⟩ := injected r member
        exact ⟨i, grown.objRefIs item, given⟩
  | addEntryPoint entry => exact permitted
  | addFlow label source target =>
    obtain ⟨x, y, from_, to_, allowed, edge, first, second⟩ := permitted
    exact ⟨x, y, grown.pointerRefIs from_, grown.pointerRefIs to_, allowed, edge,
      fun c v same m mentions => grown.interned (first c v same m mentions),
      fun c v same m mentions => grown.interned (second c v same m mentions)⟩
  | addCall kind context site callee receiver =>
    cases receiver with
    | none =>
      obtain ⟨c, frame, known, inLaw⟩ := permitted
      exact ⟨c, grown.frameOf frame, grown.interned known, inLaw⟩
    | some r =>
      obtain ⟨c, i, frame, known, item, inLaw, this⟩ := permitted
      exact ⟨c, i, grown.frameOf frame, grown.interned known, grown.objRefIs item, inLaw, this⟩
  | addFilter pointer keep =>
    obtain ⟨meddles, ⟨x, named⟩, known⟩ := permitted
    exact ⟨meddles, ⟨x, grown.pointerRefIs named⟩,
      fun c v same m mentions => grown.interned (known c v same m mentions)⟩
  | propagate pointer => exact permitted

end Facts

/-- Objects stand in the empty heap context, but for those that a statement allocates. Their heap context is
cut from the frame in which it runs. -/
def Item.Lodges (p : Program) (sel : Selector) (rules : HeapRules) (i : Item) : Prop :=
  i.frame = [] ∨ ∃ c site lhs ty, p.stmt? site = some (.new lhs ty) ∧
    i = ⟨sel.heapFrame c site.method, rules.allocated site ty⟩

/-- One thing in a state. -/
inductive Entry
  | context (c : ContextId) (elems : Context)
  | obj (o : CsObjId) (c : ContextId) (id : ObjId)
  | site (x : CsSiteId) (c : ContextId) (site : StmtRef)
  | method (id : CsMethodId) (c : ContextId) (m : MethodId)
  | pointer (q : PointerId) (ptr : Pointer)
  /-- In a set, or on its way there. -/
  | points (q : PointerId) (o : CsObjId)
  | reachable (id : CsMethodId)
  | start (id : CsMethodId)
  /-- Recorded, or waiting to be. -/
  | call (e : CallEdge)
  | edge (id : EdgeId) (e : FlowEdge)
  | receiver (id : EdgeId) (o : CsObjId)
  | command (c : Command)

namespace State

variable {σ : Type u} {s t : State σ} {law : Law} {c : ContextId} {m : MethodId}

def Has (s : State σ) : Entry → Prop
  | .context c elems => s.contexts.entries.get? c = some elems
  | .obj o c id => s.elements.obj? o = some (c, id)
  | .site x c site => s.elements.site? x = some (c, site)
  | .method id c m => s.elements.method? id = some (c, m)
  | .pointer q ptr => s.elements.pointer? q = some ptr
  | .points q o => s.Holds q o ∨ s.Pending q o
  | .reachable id => id ∈ s.calls.reachable
  | .start id => id ∈ s.calls.entries
  | .call e => e ∈ s.calls.edges ∨ e ∈ s.worklist.calls
  | .edge id e => s.flow.edge? id = some e
  | .receiver id o => s.flow.admits id o = true
  | .command c => c ∈ s.queue

/-- Whatever method a variable pointer belongs to is known in its context, or registered. -/
def Ready (p : Program) (s : State σ) (q : PointerId) : Prop :=
  ∀ c v, s.elements.pointer? q = some (.var c v) → ∀ m, p.Mentions m v →
    s.Interned c m ∨ m ∈ s.seen

structure Lives (law : Law) (s : State σ) (c : ContextId) (m : MethodId) : Prop where
  placed : s.Placed law c m
  ready : s.Interned c m ∨ m ∈ s.seen

def Obeys (cx : Setup σ) (law : Law) (s : State σ) : Entry → Prop
  | .context _ elems => ∃ frame, s.Spells elems frame
  | .obj _ c id => ∃ i : Item, s.FrameOf c i.frame ∧ s.heap.get? id = some i.obj ∧
      i.Lodges cx.program cx.selector s.heap.rules
  | .site _ c site => (∃ frame, s.FrameOf c frame) ∧ s.Lives law c site.method
  | .method _ c m => ∃ frame, s.FrameOf c frame ∧ law.holds (.reached frame m)
  | .pointer _ ptr => (∃ x, s.PointerIs ptr x) ∧
      ∀ c v, ptr = .var c v → ∀ m, cx.program.Mentions m v → s.Placed law c m
  | .points q o => ∃ x i, s.CellOf q x ∧ s.ItemOf o i ∧ law.holds (.points x i) ∧
      (s.Ready cx.program q ∨ law.injected (.points x i))
  | .reachable id => ∃ c m, s.elements.method? id = some (c, m)
  | .start id => ∃ m, s.elements.method? id = some (ContextTable.emptyId, m)
  | .call e => ∃ c site d m, s.CallOf e c site d m ∧ law.holds (.called e.kind c site d m)
  | .edge _ e => ∃ x y, s.CellOf e.source x ∧ s.CellOf e.target y ∧ s.Ready cx.program e.target ∧
      law.Allows cx.program x y e.label ∧ law.Flows cx.program e.label x y
  | .receiver id o => ∃ e x y i, s.flow.edge? id = some e ∧ e.label = .plain .thisPassing ∧
      s.CellOf e.source x ∧ s.CellOf e.target y ∧ s.ItemOf o i ∧ law.holds (.admitted x y i)
  | .command c => s.Permits cx.program cx.selector law c

structure Grows (s t : State σ) : Prop where
  grown : s.toFacts.Extends t.toFacts
  seen : ∀ m ∈ s.seen, m ∈ t.seen

theorem Grows.refl (s : State σ) : s.Grows s := ⟨Facts.Extends.refl _, fun _ member => member⟩

theorem Grows.trans {u : State σ} (first : s.Grows t) (second : t.Grows u) : s.Grows u :=
  ⟨first.grown.trans second.grown, fun m member => second.seen m (first.seen m member)⟩

theorem Grows.ready {p : Program} (grows : s.Grows t) {q : PointerId} {ptr : Pointer}
    (known : s.elements.pointer? q = some ptr) (ready : s.Ready p q) : t.Ready p q := by
  intro c v found m mentions
  have same : t.elements.pointer? q = some ptr := grows.grown.pointers _ _ known
  rw [same] at found
  cases found
  rcases ready c v known m mentions with interned | registered
  · exact Or.inl (grows.grown.interned interned)
  · exact Or.inr (grows.seen m registered)

theorem Grows.lives (grows : s.Grows t) (lives : s.Lives law c m) : t.Lives law c m :=
  ⟨grows.grown.placed lives.placed, lives.ready.imp grows.grown.interned (grows.seen m)⟩

theorem lives_of_interned (law : Law) (known : s.Interned c m) : s.Lives law c m := ⟨Or.inl known, Or.inl known⟩

theorem Grows.obeys {cx : Setup σ} (grows : s.Grows t) {x : Entry} (obeys : s.Obeys cx law x) :
    t.Obeys cx law x := by
  have grown := grows.grown
  cases x with
  | context c elems => exact obeys.imp fun _ spelled => grown.spells spelled
  | obj o c id =>
    obtain ⟨i, named, known, lodges⟩ := obeys
    exact ⟨i, grown.frameOf named, grown.objects _ _ known, grown.rules.symm ▸ lodges⟩
  | site x c site =>
    exact ⟨obeys.1.imp fun _ named => grown.frameOf named, grows.lives obeys.2⟩
  | method id c m => exact obeys.imp fun _ named => ⟨grown.frameOf named.1, named.2⟩
  | pointer q ptr =>
    exact ⟨obeys.1.imp fun _ named => grown.pointerIs named,
      fun c v same m mentions => grown.placed (obeys.2 c v same m mentions)⟩
  | points q o =>
    obtain ⟨x, i, cell, item, inLaw, place⟩ := obeys
    refine ⟨x, i, grown.cellOf cell, grown.itemOf item, inLaw, ?_⟩
    rcases place with ready | injected
    · obtain ⟨ptr, known, _⟩ := cell
      exact Or.inl (grows.ready known ready)
    · exact Or.inr injected
  | reachable id => exact obeys.imp fun _ known => known.imp fun _ before => grown.methods _ _ before
  | start id => exact obeys.imp fun _ known => grown.methods _ _ known
  | call e =>
    obtain ⟨c, site, d, m, named, inLaw⟩ := obeys
    exact ⟨c, site, d, m, grown.callOf named, inLaw⟩
  | edge id e =>
    obtain ⟨x, y, source, target, ready, allowed⟩ := obeys
    obtain ⟨ptr, known, _⟩ := target
    exact ⟨x, y, grown.cellOf source, grown.cellOf ⟨ptr, known, ‹_›⟩, grows.ready known ready, allowed⟩
  | receiver id o =>
    obtain ⟨e, x, y, i, edge, label, base, this, item, inLaw⟩ := obeys
    exact ⟨e, x, y, i, grown.edges _ _ edge, label, grown.cellOf base, grown.cellOf this,
      grown.itemOf item, inLaw⟩
  | command c => exact grown.permits obeys

end State

/-- What handlers may rely on in the facts that they see. -/
structure Facts.Sane (f : Facts) (p : Program) (law : Law) : Prop where
  methods : ∀ id c m, f.elements.method? id = some (c, m) →
    ∃ frame, f.FrameOf c frame ∧ law.holds (.reached frame m)
  held : ∀ q o, f.elements.Holds q o → ∃ x i, f.CellOf q x ∧ f.ItemOf o i ∧ law.holds (.points x i)
  vars : ∀ q c v, f.elements.pointer? q = some (.var c v) →
    (∃ frame, f.FrameOf c frame) ∧ ∀ m, p.Mentions m v → f.Placed law c m
  sites : ∀ x c site, f.elements.site? x = some (c, site) → f.Placed law c site.method
  calls : ∀ e ∈ f.calls.edges, ∃ c site d m, f.CallOf e c site d m ∧
    law.holds (.called e.kind c site d m)

/-- An event that may come up during a run: what it tells of is there, and no run starts again. -/
def Event.Named (f : Facts) : Event → Prop
  | .started => False
  | .arrived q delta => ∀ o ∈ delta, f.elements.Holds q o
  | .methodReached m => ∃ id ∈ f.calls.reachable, ∃ c, f.elements.method? id = some (c, m)
  | .csMethodReached id => id ∈ f.calls.reachable
  | .called e => e ∈ f.calls.edges
  | _ => True

/-- A law together with what makes it one, and the contract that the handlers keep. -/
structure Regime {σ : Type u} (cx : Setup σ) where
  law : Law
  rules : HeapRules
  closed : Closed (Rule cx.program cx.selector rules) law.holds
  excuse : ∀ c m, law.excused c m → law.holds (.reached c m)
  /-- Origin and key tell what an edge of a handler does. -/
  exact : ∀ a b x y x' y', law.edges (.other a) x y → law.edges (.other b) x' y' →
    a.origin = b.origin → a.key = b.key → a = b
  declared : cx.program.Scoped
  /-- What a handler remembers is still true. -/
  Good : Facts → σ → Prop
  mono : ∀ f g h, f.Extends g → Good f h → Good g h
  react : ∀ e f h, f.Sane cx.program law → f.heap.rules = rules → e.Named f → Good f h →
    Good f (cx.handlers.react e f h).state ∧
      ∀ c ∈ (cx.handlers.react e f h).commands, f.Permits cx.program cx.selector law c
  phaseEnd : ∀ n f h, f.Sane cx.program law → Good f h →
    Good f (cx.handlers.phaseEnd f n h).state ∧
      (∀ c ∈ (cx.handlers.phaseEnd f n h).commands, f.Permits cx.program cx.selector law c) ∧
      (cx.handlers.phaseEnd f n h).removals = []

namespace State

variable {σ : Type u} {cx : Setup σ}

/-- Everything in the state obeys the law, the handlers keep their contract, and nothing is filtered
unless the law lets anyone meddle. -/
structure Lawful (R : Regime cx) (s : State σ) : Prop where
  obeys : ∀ x, s.Has x → s.Obeys cx R.law x
  good : R.Good s.toFacts s.handler
  unfiltered : ¬ R.law.meddles → ∀ q, s.elements.filters q = []
  late : ¬ R.law.meddles → s.refilter = []
  rules : s.heap.rules = R.rules

variable {R : Regime cx} {s t : State σ} {c : ContextId} {o : CsObjId} {i : Item} {frame : Frame} {site : StmtRef}
  {m : MethodId} {e : FlowEdge} {q : PointerId} {ptr : Pointer} {x y : Cell} {p : Program} {law : Law}

theorem Lawful.grow (lawful : s.Lawful R) (grows : s.Grows t) (handler : t.handler = s.handler)
    (filters : ∀ q, t.elements.filters q = s.elements.filters q) (late : t.refilter = s.refilter)
    (added : ∀ x, t.Has x → s.Has x ∨ t.Obeys cx R.law x) : t.Lawful R where
  obeys := by
    intro x has
    rcases added x has with old | new
    · exact grows.obeys (lawful.obeys x old)
    · exact new
  good := by
    rw [handler]
    exact R.mono _ _ _ grows.grown lawful.good
  unfiltered := fun pure q => (filters q).trans (lawful.unfiltered pure q)
  late := fun pure => late.trans (lawful.late pure)
  rules := grows.grown.rules.trans lawful.rules

theorem Quiet.grows (quiet : s.Quiet t) : s.Grows t :=
  ⟨quiet.grown, fun _ member => quiet.seen ▸ member⟩

section

variable (lawful : s.Lawful R)

include lawful

theorem Lawful.quiet (quiet : s.Quiet t) (handler : t.handler = s.handler)
    (added : ∀ x, t.Has x → s.Has x ∨ t.Obeys cx R.law x) : t.Lawful R :=
  lawful.grow quiet.grows handler quiet.filters quiet.refilter added

theorem Lawful.sane : s.toFacts.Sane cx.program R.law where
  methods := fun id c m known => lawful.obeys (.method id c m) known
  held := by
    intro q o held
    obtain ⟨x, i, cell, item, inLaw, _⟩ := lawful.obeys (.points q o) (Or.inl held)
    exact ⟨x, i, cell, item, inLaw⟩
  vars := by
    intro q c v known
    obtain ⟨⟨x, named⟩, placed⟩ := lawful.obeys (.pointer q (.var c v)) known
    refine ⟨?_, placed c v rfl⟩
    cases x <;> first | exact named.elim | exact ⟨_, named.1⟩
  sites := fun x c site known => (lawful.obeys (.site x c site) known).2.placed
  calls := fun e recorded => lawful.obeys (.call e) (Or.inl recorded)

theorem Lawful.notify (e : Event) (named : e.Named s.toFacts) : (s.notify cx e).Lawful R := by
  obtain ⟨good, permitted⟩ := R.react e s.toFacts s.handler lawful.sane lawful.rules named lawful.good
  have quiet := notify_quiet s cx e
  refine ⟨fun x has => ?_, R.mono _ _ _ quiet.grown good, lawful.unfiltered, lawful.late,
    lawful.rules⟩
  have grows : s.Grows (s.notify cx e) := ⟨quiet.grown, fun _ member => member⟩
  have old : s.Has x → (s.notify cx e).Obeys cx R.law x := fun before => grows.obeys (lawful.obeys x before)
  cases x with
  | command c =>
    rcases List.mem_append.mp has with before | new
    · exact old before
    · exact quiet.grown.permits (permitted c new)
  | _ => exact old has

theorem Lawful.internObj (o : Obj) : (s.internObj o).1.Lawful R := by
  refine lawful.quiet (internObj_quiet s o) rfl fun x has => Or.inl ?_
  cases x <;> exact has

theorem Lawful.internCsObj {o : ObjId} (named : s.FrameOf c i.frame) (known : s.heap.get? o = some i.obj)
    (lodges : i.Lodges cx.program cx.selector s.heap.rules) : (s.internCsObj c o).1.Lawful R := by
  refine lawful.quiet (internCsObj_quiet s c o) rfl fun x has => ?_
  cases x with
  | obj o' c' id =>
    rcases Table.get?_intern_inv has with old | ⟨same, _⟩
    · exact Or.inl old
    · cases same
      exact Or.inr ⟨i, named, known, lodges⟩
  | _ => exact Or.inl has

theorem Lawful.internDescribed (o : Obj) (named : s.FrameOf c []) : (s.internDescribed c o).1.Lawful R :=
  (lawful.internObj o).internCsObj (i := ⟨[], o⟩) ((internObj_quiet s o).grown.frameOf named)
    (Table.get?_intern_self _ _) (Or.inl rfl)

theorem Lawful.internSite (named : s.FrameOf c frame) (lives : s.Lives R.law c site.method) :
    (s.internSite c site).1.Lawful R := by
  refine lawful.quiet (internSite_quiet s c site) rfl fun x has => ?_
  cases x with
  | site x' c' site' =>
    rcases Table.get?_intern_inv has with old | ⟨same, _⟩
    · exact Or.inl old
    · cases same
      exact Or.inr ⟨⟨frame, named⟩, (internSite_quiet s c site).grows.lives lives⟩
  | _ => exact Or.inl has

theorem Lawful.internMethod (named : s.FrameOf c frame) (inLaw : R.law.holds (.reached frame m)) :
    (s.internMethod c m).1.Lawful R := by
  refine lawful.grow ⟨internMethod_grown s c m, fun _ seen => seen⟩ rfl (fun _ => rfl) rfl
    fun x has => ?_
  cases x with
  | method id c' m' =>
    rcases Table.get?_intern_inv has with old | ⟨same, _⟩
    · exact Or.inl old
    · cases same
      exact Or.inr ⟨frame, named, inLaw⟩
  | _ => exact Or.inl has

theorem Lawful.pushCall {e : CallEdge} {c d : Frame} (named : s.CallOf e c site d m)
    (inLaw : R.law.holds (.called e.kind c site d m)) : (s.pushCall e).Lawful R := by
  refine lawful.quiet (pushCall_quiet s e) rfl fun x has => ?_
  cases x with
  | call e' =>
    rcases has with recorded | waiting
    · exact Or.inl (Or.inl recorded)
    · rcases List.mem_append.mp waiting with old | new
      · exact Or.inl (Or.inr old)
      · cases List.mem_singleton.mp new
        exact Or.inr ⟨c, site, d, m, named, inLaw⟩
  | _ => exact Or.inl has

theorem Lawful.pushPoints {set : ObjSet} (news : ∀ o ∈ set, s.Obeys cx R.law (.points q o)) :
    (s.pushPoints q set).Lawful R := by
  have quiet := pushPoints_quiet s q set
  refine lawful.quiet quiet rfl fun x has => ?_
  cases x with
  | points r o =>
    rcases has with held | pending
    · exact Or.inl (Or.inl held)
    · rcases Worklist.pending_pushPoints.mp pending with old | ⟨rfl, member⟩
      · exact Or.inl (Or.inr old)
      · exact Or.inr (Grows.obeys ⟨quiet.grown, fun _ seen => seen⟩ (news o member))
  | call e =>
    rcases has with recorded | waiting
    · exact Or.inl (Or.inl recorded)
    · refine Or.inl (Or.inr ?_)
      rw [State.pushPoints, Worklist.calls_pushPoints] at waiting
      exact waiting
  | _ => exact Or.inl has

theorem Lawful.internPointer (named : s.PointerIs ptr x)
    (placed : ∀ c v, ptr = .var c v → ∀ m, cx.program.Mentions m v → s.Placed R.law c m) :
    (s.internPointer ptr).1.Lawful R := by
  have quiet := internPointer_quiet s ptr
  refine lawful.quiet quiet rfl fun y has => ?_
  cases y with
  | pointer q ptr' =>
    rcases Elements.pointer?_internPointer_inv has with old | ⟨same, _⟩
    · exact Or.inl old
    · cases same
      exact Or.inr ⟨⟨x, quiet.grown.pointerIs named⟩,
        fun c v same m mentions => quiet.grown.placed (placed c v same m mentions)⟩
  | obj o c id =>
    refine Or.inl ?_
    simp only [Has, State.internPointer, Elements.obj?, Elements.objs_internPointer] at has
    exact has
  | site x c site =>
    refine Or.inl ?_
    simp only [Has, State.internPointer, Elements.site?, Elements.sites_internPointer] at has
    exact has
  | method id c m =>
    refine Or.inl ?_
    simp only [Has, State.internPointer, Elements.method?, Elements.methods_internPointer] at has
    exact has
  | points q o => exact Or.inl (has.imp_left quiet.holds_iff.mp)
  | _ => exact Or.inl has

theorem Lawful.contexts {r : ContextTable × ContextId} (yields : s.contexts.Yields r)
    (named : Facts.FrameOf { s.toFacts with contexts := r.1 } r.2 frame) :
    State.Lawful R { s with contexts := r.1 } := by
  refine lawful.quiet (contexts_quiet s r.1 yields.above) rfl fun x has => ?_
  cases x with
  | context c elems =>
    rcases yields.adds c elems has with old | rfl
    · exact Or.inl old
    · obtain ⟨elems', known, spelled⟩ := named
      have same := known.symm.trans has
      cases same
      exact Or.inr ⟨frame, spelled⟩
  | _ => exact Or.inl has

theorem Lawful.selectCallee {caller : ContextId} {c : Frame} (site : StmtRef) {receiver : Option Receiver}
    {item : Option Item} (callee : MethodId) (named : s.FrameOf caller c) (on : s.ReceiverIs receiver item) :
    (s.selectCallee cx caller site receiver callee).1.Lawful R :=
  lawful.contexts (Selector.yields_calleeContext _ _ _ _ _ _ _ _)
    (frameOf_selectCallee s cx site callee named on)

theorem Lawful.selectHeap {context : ContextId} {c : Frame} (m : MethodId) (named : s.FrameOf context c) :
    (s.selectHeap cx context m).1.Lawful R :=
  lawful.contexts (Selector.yields_heapContext _ _ _ _)
    (frameOf_selectHeap s cx m named)

theorem Lawful.handles : s.Handles := by
  have described : ∀ {o i}, s.ItemOf o i → ∃ d, s.describe? o = some d :=
    fun ⟨_, meaning, _⟩ => ⟨_, meaning⟩
  refine ⟨fun q o held => ?_, fun q o pending => ?_, fun id e edge => ?_, fun r admitted => ?_⟩
  · obtain ⟨_, _, _, item, _⟩ := lawful.obeys (.points q o) (Or.inl held)
    exact described item
  · obtain ⟨_, _, ⟨ptr, known, _⟩, item, _⟩ := lawful.obeys (.points q o) (Or.inr pending)
    exact ⟨⟨ptr, known⟩, described item⟩
  · obtain ⟨_, _, ⟨a, source, _⟩, ⟨b, target, _⟩, _⟩ := lawful.obeys (.edge id e) edge
    exact ⟨⟨a, source⟩, b, target⟩
  · obtain ⟨_, _, _, _, edge, _⟩ :=
      lawful.obeys (.receiver r.1 r.2) (EdgeStore.admits_iff.mpr admitted)
    exact EdgeStore.edge?_lt edge

theorem Lawful.pushEdge (source : s.CellOf e.source x) (target : s.CellOf e.target y)
    (ready : s.Ready cx.program e.target) (allowed : R.law.Allows cx.program x y e.label)
    (flows : R.law.Flows cx.program e.label x y) : (s.pushEdge e).Lawful R := by
  refine lawful.quiet (pushEdge_quiet s e) rfl fun z has => ?_
  cases z with
  | edge id d =>
    rcases EdgeStore.edge?_add_inv has with old | ⟨_, rfl⟩
    · exact Or.inl old
    · exact Or.inr ⟨x, y, source, target, ready, allowed, flows⟩
  | receiver id o =>
    rw [Has, EdgeStore.admits, State.pushEdge, FlowGraph.receivers_add] at has
    exact Or.inl has
  | _ => exact Or.inl has

theorem Lawful.flowOver {id : EdgeId} {set : ObjSet} (edge : s.flow.edge? id = some e)
    (allowed : R.law.Allows cx.program x y e.label) : (s.flowOver cx.program id set).1.Lawful R := by
  refine flowOver_keeps (P := (·.Lawful R)) set lawful ?_
  intro e' info t edge' label transfer u _ _ made lawful _ crossed
  cases edge.symm.trans edge'
  simp only [label, Law.Allows, transfer] at allowed
  have empty := (allowed.2 _ _ _ _ crossed).1
  exact lawful.internDescribed made.2 (empty ▸ u.frameOf_empty)

/-- What crosses an edge stays in the law under the name that it has behind the edge. -/
theorem Lawful.crosses {id : EdgeId} {d : ContextId × Obj} (edge : s.flow.edge? id = some e)
    (source : s.CellOf e.source x) (target : s.CellOf e.target y) (item : s.ItemOf o i)
    (inLaw : R.law.holds (.points x i)) (allowed : R.law.Allows cx.program x y e.label)
    (crosses : s.crossing? cx.program id e.label o = some d) :
    ∃ frame, s.FrameOf d.1 frame ∧ R.law.holds (.points y ⟨frame, d.2⟩) := by
  obtain ⟨c, meaning, frame⟩ := item
  -- all but transfers let through what they are given
  have whole : d = (c, i.obj) → R.law.holds (.points y i) →
      ∃ frame, s.FrameOf d.1 frame ∧ R.law.holds (.points y ⟨frame, d.2⟩) := by
    rintro rfl there
    exact ⟨i.frame, frame, there⟩
  simp only [Facts.crossing?, meaning, Option.bind_some] at crosses
  generalize labelled : e.label = label at allowed crosses
  cases label with
  | cast ty =>
    simp only [Option.ite_none_right_eq_some, Option.some.injEq] at crosses
    exact whole crosses.2.symm (allowed i crosses.1 inLaw)
  | other info =>
    cases transfer : info.transfer with
    | none =>
      simp only [Law.Allows, transfer, Option.some.injEq] at allowed crosses
      exact whole crosses.symm (allowed i inLaw)
    | some t =>
      simp only [Law.Allows, transfer] at allowed crosses
      obtain ⟨empty, turns⟩ := allowed.2 c i.obj d.1 d.2 crosses
      exact ⟨[], empty ▸ s.frameOf_empty, turns i.frame inLaw⟩
  | plain kind =>
    by_cases guarded : kind = .thisPassing
    · subst guarded
      simp only [Option.ite_none_right_eq_some, Option.some.injEq] at crosses
      -- the law knows the receiver by the names of the edge, and those are unique
      obtain ⟨_, x', y', i', edge', _, base, this, item', admitted⟩ :=
        lawful.obeys (.receiver id o) crosses.1
      rw [edge] at edge'
      cases edge'
      obtain rfl := source.unique base
      obtain rfl := target.unique this
      obtain rfl := item'.unique ⟨c, meaning, frame⟩
      exact whole crosses.2.symm (R.closed.two Rule.pass admitted inLaw)
    · have through : d = (c, i.obj) ∧ R.law.holds (.points y i) := by
        cases kind <;> first
          | exact absurd rfl guarded
          | exact ⟨(Option.some.inj crosses).symm, allowed i inLaw⟩
      exact whole through.1 through.2

theorem Lawful.send {id : EdgeId} {set : ObjSet} (edge : s.flow.edge? id = some e)
    (held : ∀ o ∈ set, s.Holds e.source o) : (s.send cx.program set id).Lawful R := by
  have known : s.Describes set :=
    fun o member => lawful.handles.held _ o (held o member)
  obtain ⟨x, y, source, target, ready, allowed, _⟩ := lawful.obeys (.edge id e) edge
  have crossed := flowOver_crossed (p := cx.program) edge known
  have grown := crossed.grown
  rw [send_eq edge known]
  refine (lawful.flowOver edge allowed).pushPoints fun o' member => ?_
  obtain ⟨o, inside, d, crosses, meaning⟩ := crossed.origin o' member
  obtain ⟨x', i, cell, item, inLaw, _⟩ := lawful.obeys (.points e.source o) (Or.inl (held o inside))
  obtain rfl := source.unique cell
  obtain ⟨frame, named, result⟩ := lawful.crosses edge source target item inLaw allowed crosses
  have ⟨_, place, _⟩ := target
  exact ⟨y, ⟨frame, d.2⟩, grown.cellOf target, ⟨d.1, meaning, grown.frameOf named⟩, result,
    Or.inl (crossed.toQuiet.grows.ready place ready)⟩

theorem Lawful.sendAll {set : ObjSet} (held : ∀ o ∈ set, s.Holds q o) :
    (s.sendAll cx.program q set).Lawful R := by
  -- sending is quiet: the edges of `q` and what it holds are the same before each of them
  refine (List.foldlRecOn (motive := fun t => t.Lawful R ∧ s.Quiet t) (s.flow.outEdges q) _
    ⟨lawful, Quiet.refl s⟩ ?_).1
  rintro t ⟨lawful', quiet⟩ id member
  obtain ⟨e, edge, source⟩ := s.flow.agrees.mem_outEdges.mp member
  refine ⟨lawful'.send (quiet.grown.edges _ _ edge) fun o inside => ?_, quiet.trans (send_quiet t id set)⟩
  rw [source]
  exact quiet.holds_iff.mpr (held o inside)

theorem Lawful.addFlow (source : s.CellOf e.source x) (target : s.CellOf e.target y)
    (ready : s.Ready cx.program e.target) (allowed : R.law.Allows cx.program x y e.label)
    (flows : R.law.Flows cx.program e.label x y) : (s.addFlow cx.program e).Lawful R := by
  rcases addFlow_cases (p := cx.program) s e with
    ⟨id, old, edge, same, unchanged | ⟨pts, found, sent⟩⟩ | ⟨edge, ⟨made, _⟩ | ⟨pts, found, made⟩⟩
  · rw [unchanged]
    exact lawful
  · -- the old edge has the same ends but may have a label of its own, which the law allows already
    rw [sent]
    have ends : old.source = e.source := congrArg EdgeIdentity.source same
    exact lawful.send edge fun o member => ⟨pts, ends ▸ found, member⟩
  · rw [made]
    exact lawful.pushEdge source target ready allowed flows
  · rw [made]
    exact (lawful.pushEdge source target ready allowed flows).send edge fun o member => ⟨pts, found, member⟩

end

/-- A pointer that the rules may come upon. -/
structure Meets (p : Program) (law : Law) (s : State σ) (ptr : Pointer) (x : Cell) : Prop where
  named : s.PointerIs ptr x
  lives : ∀ c v, ptr = .var c v → ∀ m, p.Mentions m v → s.Lives law c m

theorem Grows.meets (grows : s.Grows t) (meets : s.Meets p law ptr x) : t.Meets p law ptr x :=
  ⟨grows.grown.pointerIs meets.named,
    fun c v same m mentions => grows.lives (meets.lives c v same m mentions)⟩

/-- A variable belongs to one method, so its method settles where it may be met. -/
theorem meets_var (declared : p.Scoped) {v : VarId} (named : s.FrameOf c frame) (mentions : p.Mentions m v)
    (lives : s.Lives law c m) : s.Meets p law (.var c v) (.var frame v) := by
  refine ⟨⟨named, rfl⟩, fun c' v' same n also => ?_⟩
  cases same
  rw [declared.same also mentions]
  exact lives

theorem meets_field (item : s.ItemOf o i) (f : FieldId) : s.Meets p law (.field o f) (.field i f) :=
  ⟨⟨item, rfl⟩, fun _ _ same => by cases same⟩

theorem meets_element (item : s.ItemOf o i) : s.Meets p law (.element o) (.element i) :=
  ⟨item, fun _ _ same => by cases same⟩

theorem meets_static (f : FieldId) : s.Meets p law (.static f) (.static f) :=
  ⟨rfl, fun _ _ same => by cases same⟩

theorem Lawful.meet (lawful : s.Lawful R) (meets : s.Meets cx.program R.law ptr x) :
    (s.internPointer ptr).1.Lawful R :=
  lawful.internPointer meets.named fun c v same m mentions => (meets.lives c v same m mentions).placed

theorem cellOf_internPointer (named : s.PointerIs ptr x) :
    (s.internPointer ptr).1.CellOf (s.internPointer ptr).2 x :=
  ⟨ptr, Elements.pointer?_internPointer_self _ _, (internPointer_quiet s ptr).grown.pointerIs named⟩

theorem Meets.ready (meets : s.Meets p law ptr x) (known : s.elements.pointer? q = some ptr) : s.Ready p q := by
  intro c v found m mentions
  rw [known] at found
  cases found
  exact (meets.lives c v rfl m mentions).ready

theorem Lawful.link (lawful : s.Lawful R) {kind : FlowKind} {a b : Pointer}
    (source : s.Meets cx.program R.law a x) (target : s.Meets cx.program R.law b y)
    (flows : FlowRule cx.program R.law.holds (.plain kind) x y) : (s.link cx.program kind a b).Lawful R := by
  have first := internPointer_quiet s a
  have second := internPointer_quiet (s.internPointer a).1 b
  have later := first.grows.meets target
  have final := second.grows.meets later
  refine ((lawful.meet source).meet later).addFlow ?_ ?_ (final.ready ?_)
    (flows.allows R.closed) (Or.inl flows)
  · exact second.grown.cellOf (cellOf_internPointer source.named)
  · exact cellOf_internPointer later.named
  · exact Elements.pointer?_internPointer_self _ b

theorem passReceiver_same (s : State σ) (base this : PointerId) (receiver : CsObjId) :
    ∃ flow worklist, worklist.calls = s.worklist.calls ∧
      s.passReceiver base this receiver = { s with flow := flow, worklist := worklist } :=
  passReceiver_keeps (P := fun t => ∃ flow worklist, worklist.calls = s.worklist.calls ∧
      t = { s with flow := flow, worklist := worklist }) ⟨_, s.worklist, rfl, rfl⟩
    fun _ => ⟨_, _, Worklist.calls_pushPoints s.worklist this (ObjSet.singleton receiver), rfl⟩

theorem Lawful.passReceiver (lawful : s.Lawful R) {base this : PointerId} {receiver : CsObjId}
    (source : s.CellOf base x) (target : s.CellOf this y) (ready : s.Ready cx.program this)
    (item : s.ItemOf receiver i) (admitted : R.law.holds (.admitted x y i)) (inLaw : R.law.holds (.points x i)) :
    (s.passReceiver base this receiver).Lawful R := by
  have quiet := passReceiver_quiet s base this receiver
  have grown := quiet.grown
  obtain ⟨ptr, known, _⟩ := id target
  have lands := quiet.grows.ready known ready
  have arrives : R.law.holds (.points y i) := R.closed.two Rule.pass admitted inLaw
  obtain ⟨flow, worklist, calls, equal⟩ := passReceiver_same s base this receiver
  refine lawful.quiet quiet (by rw [equal]) fun z has => ?_
  cases z with
  | edge id e =>
    rw [Has, edge?_passReceiver] at has
    rcases EdgeStore.edge?_add_inv has with old | ⟨_, rfl⟩
    · exact Or.inl old
    · exact Or.inr ⟨x, y, grown.cellOf source, grown.cellOf target, lands, trivial,
        Or.inl (.pass admitted)⟩
  | receiver id o =>
    rcases mem_receivers_passReceiver has with old | ⟨rfl, ⟨e, edge, label, rfl, rfl⟩, _⟩
    · exact Or.inl old
    · exact Or.inr ⟨e, x, y, i, edge, label, grown.cellOf source, grown.cellOf target,
        grown.itemOf item, admitted⟩
  | points q o =>
    rcases has with held | pending
    · exact Or.inl (Or.inl (quiet.holds_iff.mp held))
    · rcases pending_passReceiver pending with old | ⟨rfl, rfl⟩
      · exact Or.inl (Or.inr old)
      · exact Or.inr ⟨y, i, grown.cellOf target, grown.itemOf item, arrives, Or.inl lands⟩
  | call e =>
    rw [equal, Has, calls] at has
    exact Or.inl has
  | _ =>
    rw [equal] at has
    exact Or.inl has

theorem Lawful.filled (lawful : s.Lawful R) {set : ObjSet} (arrives : ∀ o ∈ set, s.Obeys cx R.law (.points q o)) :
    (s.filled q set).Lawful R := by
  have grows : s.Grows (s.filled q set) := ⟨filled_grown s q set, fun _ member => member⟩
  have known : ∀ o ∈ set, s.Knows q := by
    intro o member
    obtain ⟨_, _, ⟨ptr, found, _⟩, _⟩ := arrives o member
    exact ⟨ptr, found⟩
  refine lawful.grow grows rfl (fun r => Elements.filters_setPts _ _ _ _) rfl fun x has => ?_
  cases x with
  | points r o =>
    rcases has with held | pending
    · rcases (holds_filled known).mp held with before | ⟨rfl, member⟩
      · exact Or.inl (Or.inl before)
      · exact Or.inr (grows.obeys (arrives o (subset_of_admitted member)))
    · exact Or.inl (Or.inr pending)
  | _ => exact Or.inl has

end State

end PointsTo
