import PointsTo.Proofs.BuiltIn
import PointsTo.Proofs.Openings

/-!
Runs with taint, which keeps objects away from variables and turns objects into others. Still, the taint
handler names nothing but what exists, meets variables only where their method is known, and filters a
variable at once when that method is reached.
-/
namespace PointsTo

variable {p : Program} {holds : Fact → Prop} {x y : Cell}

/-- A label that runs with these transfers use: what an edge passes on can be told from its name. -/
def FlowLabel.Listed (ts : List TaintTransfer) : FlowLabel → Prop
  | .other info =>
    if info.origin = "taint-transfer" then
      ∃ t, ts[info.key]? = some t ∧ info.transfer = some (taintTransfer t.ty)
    else info.transfer = none
  | _ => True

/-- The law that forbids nothing but to meet a variable where its method is not known. -/
def Law.free (ts : List TaintTransfer) : Law where
  holds := fun _ => True
  meddles := True
  edges := fun label _ _ => label.Listed ts

theorem Natives.Flow.listed {label : FlowLabel} (flow : Flow p holds label x y) (ts : List TaintTransfer) :
    label.Listed ts := by
  cases flow <;> simp [FlowLabel.Listed]

theorem FlowRule.listed {label : FlowLabel} (rule : FlowRule p holds label x y) (ts : List TaintTransfer) :
    label.Listed ts := by
  cases rule <;> trivial

theorem FlowLabel.Listed.same {ts : List TaintTransfer} {a b : EdgeInfo}
    (first : (FlowLabel.other a).Listed ts) (second : (FlowLabel.other b).Listed ts)
    (origin : a.origin = b.origin) (key : a.key = b.key) : a = b := by
  suffices transfer : a.transfer = b.transfer by
    cases a
    cases b
    simp_all
  simp only [Listed] at first second
  rw [← origin, ← key] at second
  by_cases taint : a.origin = "taint-transfer"
  · rw [if_pos taint] at first second
    obtain ⟨t, known, passes⟩ := first
    obtain ⟨t', known', passes'⟩ := second
    cases known.symm.trans known'
    exact passes.trans passes'.symm
  · rw [if_neg taint] at first second
    exact first.trans second.symm

namespace Facts

variable {f g : Facts} {p : Program} {sel : Selector} {ts : List TaintTransfer} {c : ContextId} {v : VarId}
  {e : Event} {r : PointerRef}

theorem Sane.only (sane : f.Sane p (Law.free ts)) : f.Sane p (Law.only p fun _ => True) :=
  ⟨sane.methods, sane.held, sane.vars, sane.sites, sane.calls⟩

theorem Permits.free {d : Command} (permitted : f.Permits p sel (Law.only p fun _ => True) d) :
    f.Permits p sel (Law.free ts) d := by
  cases d with
  | addFlow label source target =>
    obtain ⟨x, y, first, second, allowed, flow, vars⟩ := permitted
    refine ⟨x, y, first, second, ?_, flow.listed ts, vars⟩
    cases label with
    | plain kind => cases kind <;> exact allowed
    | cast ty => exact allowed
    | other info =>
      cases transfer : info.transfer with
      | none => simp [Law.Allows, transfer, Law.free]
      | some t =>
        rw [Law.Allows, transfer] at allowed
        exact allowed.1.elim
  | addCall kind context site callee receiver => cases receiver <;> exact permitted
  | addFilter pointer keep => exact permitted.1.elim
  | _ => exact permitted

/-- A command that may be given when an event is told of. -/
structure Grants (f : Facts) (p : Program) (sel : Selector) (ts : List TaintTransfer) (e : Event)
    (d : Command) : Prop where
  permitted : f.Permits p sel (Law.free ts) d
  prompt : ∀ r keep, d = .addFilter r keep → ∃ id c m v, e = .csMethodReached id ∧
    f.elements.method? id = some (c, m) ∧ r = .var c v ∧ p.Mentions m v

/-- A pointer that may be asked for: it has a name, and a variable belongs to a known method. -/
structure Fits (f : Facts) (p : Program) (r : PointerRef) : Prop where
  named : ∃ x, f.PointerRefIs r x
  owned : ∀ c v, r = .var c v → f.Owns p c v

theorem Extends.owns (grown : f.Extends g) (owns : f.Owns p c v) : g.Owns p c v :=
  owns.imp fun _ known => ⟨grown.interned known.1, known.2⟩

theorem Sane.fits (sane : f.Sane p (Law.free ts)) (owns : f.Owns p c v) : f.Fits p (.var c v) := by
  obtain ⟨m, known, _⟩ := id owns
  obtain ⟨frame, named, _⟩ := sane.only.reached known
  refine ⟨⟨.var frame v, named, rfl⟩, ?_⟩
  rintro c v ⟨rfl, rfl⟩
  exact owns

theorem fits_inside {kind : IndexKind} {o : CsObjId} {i : Item} (item : f.ItemOf o i)
    (inside : TaintSources.inside? kind o = some r) : f.Fits p r := by
  cases kind with
  | var => cases inside
  | array =>
    cases inside
    exact ⟨⟨.element i, item⟩, fun _ _ same => by cases same⟩
  | field g =>
    cases inside
    exact ⟨⟨.field i g, item, rfl⟩, fun _ _ same => by cases same⟩

theorem Fits.points (fits : f.Fits p r) (declared : p.Scoped) (mark : Obj) :
    f.Grants p sel ts e (.addPointsTo r [.plain mark]) := by
  obtain ⟨x, named⟩ := fits.named
  refine ⟨⟨x, named, List.forall_mem_singleton.mpr ⟨_, f.objRefIs_plain mark, trivial⟩, ?_⟩, nofun⟩
  exact fun c v same => Or.inl fun m mentions => (fits.owned c v same).interned declared mentions

theorem Sane.items (sane : f.Sane p (Law.free ts)) {pts : ObjSet} (found : f.varPts? c v = some pts) :
    ∀ o ∈ pts, ∃ i, f.ItemOf o i := by
  intro o member
  obtain ⟨_, i, _, item, _⟩ := sane.only.suits_held found o member
  exact ⟨i, item⟩

end Facts

namespace TaintSources

variable {f : Facts} {p : Program} {sel : Selector} {ts : List TaintTransfer} {s : TaintSources} {e : Event}

theorem grants_markInside {objs : ObjSet} (items : ∀ o ∈ objs, ∃ i, f.ItemOf o i) (declared : p.Scoped)
    (kind : IndexKind) (mark : Obj) :
    ∀ d ∈ markInside objs kind mark, f.Grants p sel ts e d := by
  intro d listed
  obtain ⟨o, held, r, inside, rfl⟩ := mem_markInside.mp listed
  obtain ⟨i, item⟩ := items o held
  exact (Facts.fits_inside item inside).points declared mark

theorem enter_granted (sel : Selector) (e : Event) (sane : f.Sane p (Law.free ts)) (declared : p.Scoped)
    {m : PendingMark} (owns : f.Owns p m.context m.var) :
    (s.enter f m).1.loads = s.loads ∧ ∀ d ∈ (s.enter f m).2, f.Grants p sel ts e d := by
  unfold enter
  split
  · exact ⟨rfl, List.forall_mem_singleton.mpr ((sane.fits owns).points declared m.mark)⟩
  · split
    · exact ⟨rfl, List.forall_mem_nil _⟩
    · refine ⟨rfl, ?_⟩
      split
      · next objs held => exact grants_markInside (sane.items held) declared _ _
      · exact List.forall_mem_nil _

theorem enterAll_granted (sel : Selector) (e : Event) (s : TaintSources) (marks : Marks)
    (sane : f.Sane p (Law.free ts)) (declared : p.Scoped) {context : ContextId}
    {points : List (SourcePoint × VarId × IndexKind × Ty)}
    (owned : ∀ x ∈ points, f.Owns p context x.2.1) :
    (enterAll f context (s, marks) points).state.1.loads = s.loads ∧
      ∀ d ∈ (enterAll f context (s, marks) points).commands, f.Grants p sel ts e d := by
  induction points generalizing s marks with
  | nil => exact ⟨rfl, List.forall_mem_nil _⟩
  | cons x rest ih =>
    obtain ⟨point, v, kind, ty⟩ := x
    obtain ⟨first, others⟩ := List.forall_mem_cons.mp owned
    obtain ⟨loads, asked⟩ := enter_granted (s := s) sel e sane declared
      (m := ⟨context, v, kind, (marks.mark point ty).2⟩) first
    obtain ⟨loads', later⟩ := ih _ _ others
    exact ⟨loads'.trans loads, List.forall_mem_append.mpr ⟨asked, later⟩⟩

/-- The loads of source fields belong to their methods. -/
def Recalls (p : Program) (s : TaintSources) : Prop := ∀ x ∈ s.loads, p.Mentions x.1.method x.2.1

theorem Recalls.recordLoad (recalls : s.Recalls p) (site : StmtRef) : (s.recordLoad p site).Recalls p := by
  intro x recorded
  rcases mem_recordLoad.mp recorded with old | ⟨rfl, loads, _⟩
  · exact recalls x old
  · obtain ⟨stmt, known, written⟩ := loads.writes
    exact Program.mentions_of_stmt known (Or.inr written)

theorem mentions_callPoints {site : StmtRef} {call : Invoke} (calls : p.invoke? site = some call)
    (callee : MethodId) : ∀ x ∈ s.callPoints site call callee, p.Mentions site.method x.2.1 := by
  rintro ⟨a, v, kind, ty⟩ listed
  obtain ⟨index, _, var, _⟩ := mem_callPoints.mp listed
  exact Index.mentions_callVar? calls var

theorem Recalls.mentions_methodPoints (recalls : s.Recalls p) (m : MethodId) :
    ∀ x ∈ s.methodPoints p m, p.Mentions m x.2.1 := by
  rintro ⟨a, v, kind, ty⟩ listed
  rcases mem_methodPoints.mp listed with ⟨body, index, code, _, var, _⟩ | ⟨site, g, load, rfl, _⟩
  · exact Index.mentions_paramVar? code var
  · exact recalls _ load

end TaintSources

namespace TransferSite

variable {f g : Facts} {p : Program} {sel : Selector} {ts : List TaintTransfer} {t : TransferSite} {e : Event}

def Listed (ts : List TaintTransfer) (t : TransferSite) : Prop := ∃ x, ts[t.id]? = some x ∧ t.ty = x.ty

structure Owned (p : Program) (ts : List TaintTransfer) (f : Facts) (t : TransferSite) : Prop where
  source : f.Owns p t.context t.source.1
  target : f.Owns p t.context t.target.1
  listed : t.Listed ts

theorem Owned.later (owned : t.Owned p ts f) (grown : f.Extends g) : t.Owned p ts g :=
  ⟨grown.owns owned.source, grown.owns owned.target, owned.listed⟩

theorem grants_edge (declared : p.Scoped) (listed : t.Listed ts) {a b : PointerRef} (source : f.Fits p a)
    (target : f.Fits p b) : f.Grants p sel ts e (t.edge a b) := by
  obtain ⟨x, from_⟩ := source.named
  obtain ⟨y, to_⟩ := target.named
  obtain ⟨given, known, same⟩ := listed
  refine ⟨⟨x, y, from_, to_, ⟨trivial, fun c o d o' passes => ⟨?_, fun _ _ => trivial⟩⟩,
    ⟨given, known, by rw [same]⟩, fun c v same m mentions => (source.owned c v same).interned declared mentions,
    fun c v same m mentions => (target.owned c v same).interned declared mentions⟩, nofun⟩
  -- taint is passed on in the empty heap context
  obtain ⟨_, _, same⟩ := Option.map_eq_some_iff.mp passes
  cases same
  rfl

theorem fits_ends (sane : f.Sane p (Law.free ts)) {x : VarId × IndexKind} (owns : f.Owns p t.context x.1) :
    ∀ r ∈ t.ends f x, f.Fits p r := by
  intro r listed
  rcases mem_ends.mp listed with ⟨_, rfl⟩ | ⟨objs, held, o, member, inside⟩
  · exact sane.fits owns
  · obtain ⟨i, item⟩ := sane.items held o member
    exact Facts.fits_inside item inside

theorem grants_expand (sane : f.Sane p (Law.free ts)) (declared : p.Scoped) (owned : t.Owned p ts f) (v : VarId)
    {objs : ObjSet} (items : ∀ o ∈ objs, ∃ i, f.ItemOf o i) :
    ∀ d ∈ t.expand f v objs, f.Grants p sel ts e d := by
  intro d listed
  obtain ⟨a, b, rfl, ⟨_, ⟨o, member, inside⟩, target⟩ | ⟨_, ⟨o, member, inside⟩, source⟩⟩ :=
    mem_expand.mp listed
  all_goals obtain ⟨i, item⟩ := items o member
  · exact grants_edge declared owned.listed (Facts.fits_inside item inside)
      (fits_ends sane owned.target b target)
  · exact grants_edge declared owned.listed (fits_ends sane owned.source a source)
      (Facts.fits_inside item inside)

end TransferSite

namespace TaintTransfers

variable {f : Facts} {p : Program} {sel : Selector} {ts : List TaintTransfer} {s : TaintTransfers}

/-- The handler has the listed transfers, and those that wait are among them. -/
structure Recalls (p : Program) (ts : List TaintTransfer) (f : Facts) (s : TaintTransfers) : Prop where
  transfers : s.transfers = ts
  pending : ∀ x ∈ s.pending, x.2.Owned p ts f

theorem Recalls.owned_sitesAt (recalls : s.Recalls p ts f) {context : ContextId} {site : StmtRef}
    {call : Invoke} (known : f.Interned context site.method) (calls : p.invoke? site = some call)
    (callee : MethodId) :
    ∀ t ∈ s.sitesAt context call callee, t.Owned p ts f := by
  intro t listed
  obtain ⟨x, place, _, first, second, whole⟩ := mem_sitesAt.mp listed
  rw [recalls.transfers] at place
  rw [whole]
  exact ⟨⟨_, known, Index.mentions_callVar? calls first⟩,
    ⟨_, known, Index.mentions_callVar? calls second⟩, x, place, rfl⟩

theorem startAll_granted (sel : Selector) (e : Event) (recalls : s.Recalls p ts f) (sane : f.Sane p (Law.free ts))
    (declared : p.Scoped) {sites : List TransferSite} (owned : ∀ t ∈ sites, t.Owned p ts f) :
    (s.startAll f sites).1.Recalls p ts f ∧ ∀ d ∈ (s.startAll f sites).2, f.Grants p sel ts e d := by
  refine ⟨⟨?_, fun x waits => ?_⟩, fun d asked => ?_⟩
  · rw [startAll_transfers]
    exact recalls.transfers
  · exact (mem_pending_startAll.mp waits).elim (recalls.pending x) fun new => owned x.2 new.1
  · obtain ⟨t, listed, a, source, b, target, rfl⟩ := mem_startAll.mp asked
    have own := owned t listed
    exact TransferSite.grants_edge declared own.listed (TransferSite.fits_ends sane own.source a source)
      (TransferSite.fits_ends sane own.target b target)

end TaintTransfers

namespace Taint

variable {f g : Facts} {p : Program} {sel : Selector} {ts : List TaintTransfer} {s : Taint} {context : ContextId}

structure Remembers (p : Program) (ts : List TaintTransfer) (f : Facts) (s : Taint) : Prop where
  sources : s.sources.Recalls p
  transfers : s.transfers.Recalls p ts f

theorem Remembers.later (remembers : s.Remembers p ts f) (grown : f.Extends g) : s.Remembers p ts g :=
  ⟨remembers.sources, remembers.transfers.transfers, fun x waits =>
    (remembers.transfers.pending x waits).later grown⟩

theorem enter_granted (sel : Selector) (e : Event) (remembers : s.Remembers p ts f)
    (sane : f.Sane p (Law.free ts)) (declared : p.Scoped) {points : List (SourcePoint × VarId × IndexKind × Ty)}
    (owned : ∀ x ∈ points, f.Owns p context x.2.1) :
    (s.enter f context points).state.Remembers p ts f ∧
      ∀ d ∈ (s.enter f context points).commands, f.Grants p sel ts e d := by
  obtain ⟨loads, asked⟩ := TaintSources.enterAll_granted sel e s.sources s.marks sane declared owned
  refine ⟨⟨fun x listed => remembers.sources x ?_, remembers.transfers⟩, asked⟩
  exact loads ▸ listed

theorem grants_sanitize (sane : f.Sane p (Law.free ts)) (declared : p.Scoped) (s : Taint) {id : CsMethodId}
    {m : MethodId} (known : f.elements.method? id = some (context, m)) :
    ∀ d ∈ s.sanitize p context m, f.Grants p sel ts (.csMethodReached id) d := by
  intro d listed
  obtain ⟨t, _, _, body, code, v, var, rfl⟩ := mem_sanitize.mp listed
  have mentions := Index.mentions_paramVar? code var
  have fits : f.Fits p (.var context v) := sane.fits ⟨m, ⟨id, known⟩, mentions⟩
  refine ⟨⟨trivial, fits.named, fun c w same n mentions =>
    (fits.owned c w same).interned declared mentions⟩, ?_⟩
  rintro r keep ⟨rfl, rfl⟩
  exact ⟨id, context, m, v, rfl, known, rfl, mentions⟩

theorem call_granted (remembers : s.Remembers p ts f) (sane : f.Sane p (Law.free ts)) (declared : p.Scoped)
    (e : CallEdge) : (s.call p f e).state.Remembers p ts f ∧
      ∀ d ∈ (s.call p f e).commands, f.Grants p sel ts (.called e) d := by
  unfold call
  split
  · next context site _ callee place _ =>
    split
    · exact ⟨remembers, List.forall_mem_nil _⟩
    · next call calls =>
      split
      · exact ⟨remembers, List.forall_mem_nil _⟩
      · have known : f.Interned context site.method := Facts.placed_only (sane.only.sites _ _ _ place)
        have owned : ∀ x ∈ s.sources.callPoints site call callee, f.Owns p context x.2.1 :=
          fun x listed => ⟨_, known, TaintSources.mentions_callPoints calls callee x listed⟩
        obtain ⟨entered, asked⟩ := enter_granted sel (.called e) remembers sane declared owned
        obtain ⟨transfers, passed⟩ := TaintTransfers.startAll_granted sel (.called e) entered.transfers sane
          declared (entered.transfers.owned_sitesAt known calls callee)
        exact ⟨⟨entered.sources, transfers⟩, List.forall_mem_append.mpr ⟨asked, passed⟩⟩
  · exact ⟨remembers, List.forall_mem_nil _⟩

theorem react_granted (remembers : s.Remembers p ts f) (sane : f.Sane p (Law.free ts)) (declared : p.Scoped)
    {e : Event} (named : e = .started ∨ e.Named f) : (s.react p f e).state.Remembers p ts f ∧
      ∀ d ∈ (s.react p f e).commands, f.Grants p sel ts e d := by
  cases e with
  | stmtReached site =>
    exact ⟨⟨remembers.sources.recordLoad site, remembers.transfers⟩, List.forall_mem_nil _⟩
  | csMethodReached id =>
    simp only [react]
    split
    · exact ⟨remembers, List.forall_mem_nil _⟩
    · next context method known =>
      have owned : ∀ x ∈ s.sources.methodPoints p method, f.Owns p context x.2.1 :=
        fun x listed => ⟨_, ⟨id, known⟩, remembers.sources.mentions_methodPoints method x listed⟩
      obtain ⟨entered, asked⟩ := enter_granted sel (.csMethodReached id) remembers sane declared owned
      exact ⟨entered, List.forall_mem_append.mpr ⟨asked, grants_sanitize sane declared _ known⟩⟩
  | called e => exact call_granted remembers sane declared e
  | arrived q delta =>
    simp only [react]
    split
    · next context v known =>
      have items : ∀ o ∈ delta, ∃ i, f.ItemOf o i := fun o member => by
        obtain ⟨_, i, _, item, _⟩ := sane.held q o (named.resolve_left Event.noConfusion o member)
        exact ⟨i, item⟩
      refine ⟨remembers, List.forall_mem_append.mpr ⟨fun d listed => ?_, fun d listed => ?_⟩⟩
      · obtain ⟨m, _, asked⟩ := List.mem_flatMap.mp listed
        exact TaintSources.grants_markInside items declared _ _ d asked
      · obtain ⟨x, waits, asked⟩ := List.mem_flatMap.mp listed
        have owned := remembers.transfers.pending x (List.mem_filter.mp waits).1
        exact TransferSite.grants_expand sane declared owned v items d asked
    · exact ⟨remembers, List.forall_mem_nil _⟩
  | _ => exact ⟨remembers, List.forall_mem_nil _⟩

end Taint

namespace Handler

variable {f g : Facts} {p : Program} {sel : Selector} {rules : HeapRules} {ts : List TaintTransfer} {h : Handler}

def transfers? : Handler → Option (List TaintTransfer)
  | taint s => some s.transfers.transfers
  | _ => none

/-- What the handler remembers is so, whether it meddles or not; of scripts nothing can be said. -/
def Behaves (p : Program) (sel : Selector) (rules : HeapRules) (ts : List TaintTransfer) (f : Facts)
    (h : Handler) : Prop :=
  h.Remembers p sel rules (fun _ => True) f ∨ ∃ s, h = .taint s ∧ s.Remembers p ts f

theorem Behaves.later (behaves : h.Behaves p sel rules ts f) (grown : f.Extends g) :
    h.Behaves p sel rules ts g := by
  rcases behaves with remembers | ⟨s, rfl, remembers⟩
  · exact Or.inl (remembers.later grown)
  · exact Or.inr ⟨s, rfl, remembers.later grown⟩

theorem react_granted (behaves : h.Behaves p sel f.heap.rules ts f) (sane : f.Sane p (Law.free ts))
    (declared : p.Scoped) {e : Event} (named : e = .started ∨ e.Named f) :
    (h.react p e f).state.Behaves p sel f.heap.rules ts f ∧
      ∀ d ∈ (h.react p e f).commands, f.Grants p sel ts e d := by
  rcases behaves with remembers | ⟨s, rfl, remembers⟩
  · have proper := react_proper remembers sane.only declared named
    refine ⟨Or.inl proper.state, fun d listed => ⟨(proper.commands d listed).free, ?_⟩⟩
    rintro r keep rfl
    exact (proper.commands _ listed).1.elim
  · obtain ⟨good, granted⟩ := Taint.react_granted remembers sane declared named
    exact ⟨Or.inr ⟨_, rfl, good⟩, granted⟩

theorem Behaves.plain (behaves : h.Behaves p sel rules ts f) (s : Script) : h ≠ .script s := by
  rcases behaves with remembers | ⟨t, rfl, _⟩
  · exact remembers.plain s
  · exact Handler.noConfusion

end Handler

namespace Chain

variable {f : Facts} {p : Program} {sel : Selector} {rules : HeapRules} {ts : List TaintTransfer} {chain : Chain}

def transfers (chain : Chain) : List TaintTransfer := (chain.findSome? Handler.transfers?).getD []

theorem transfers_eq {s : Taint} (listed : .taint s ∈ chain)
    (same : ∀ s, .taint s ∈ chain → s.transfers.transfers = ts) : chain.transfers = ts := by
  unfold transfers
  cases found : chain.findSome? Handler.transfers? with
  | none => cases List.findSome?_eq_none_iff.mp found _ listed
  | some given =>
    obtain ⟨h, member, first⟩ := List.exists_of_findSome?_eq_some found
    cases h with
    | taint s =>
      cases first
      exact same s member
    | _ => cases first

def Behaves (p : Program) (sel : Selector) (rules : HeapRules) (ts : List TaintTransfer) (f : Facts)
    (chain : Chain) : Prop :=
  ∀ h ∈ chain, h.Behaves p sel rules ts f

theorem react_granted (behaves : chain.Behaves p sel f.heap.rules ts f) (sane : f.Sane p (Law.free ts))
    (declared : p.Scoped) {e : Event} (named : e = .started ∨ e.Named f) :
    (Chain.react p e f chain).state.Behaves p sel f.heap.rules ts f ∧
      ∀ d ∈ (Chain.react p e f chain).commands, f.Grants p sel ts e d := by
  have each := fun h listed => Handler.react_granted (behaves h listed) sane declared named
  refine ⟨?_, fun d asked => ?_⟩
  · rw [react_state]
    exact List.forall_mem_map.mpr fun h listed => (each h listed).1
  · obtain ⟨h, listed, asked⟩ := mem_commands.mp asked
    exact (each h listed).2 d asked

/-- All built-in handlers keep their contract under the free law. -/
def freely (p : Program) (sel : Selector) (rules : HeapRules) (ts : List TaintTransfer)
    (declared : p.Scoped) : Regime ⟨p, sel, Chain.handlers p⟩ where
  law := Law.free ts
  rules := rules
  closed := fun _ _ _ _ => trivial
  excuse := fun _ _ => False.elim
  exact := fun _ _ _ _ _ _ first second => first.same second
  declared := declared
  Good := fun f chain => chain.Behaves p sel rules ts f
  mono := fun _ _ _ grown behaves h member => (behaves h member).later grown
  react := by
    intro e f chain sane same named behaves
    subst same
    obtain ⟨good, granted⟩ := react_granted behaves sane declared (Or.inr named)
    exact ⟨good, fun d asked => (granted d asked).permitted⟩
  phaseEnd := by
    intro n f chain _ behaves
    show Behaves p sel rules ts f (Chain.phaseEnd f n chain).state ∧
      (∀ c ∈ (Chain.phaseEnd f n chain).commands, _) ∧ (Chain.phaseEnd f n chain).removals = []
    rw [phaseEnd_silent fun h member => (behaves h member).plain]
    exact ⟨behaves, List.forall_mem_nil _, rfl⟩

theorem opens {heap : Heap} (declared : p.Scoped) (behaves : chain.Behaves p sel heap.rules ts { heap }) :
    (freely p sel heap.rules ts declared).Opens heap chain := by
  obtain ⟨good, granted⟩ := react_granted behaves (blank_sane heap _) declared (e := .started) (Or.inl rfl)
  exact ⟨rfl, good, fun d asked => (granted d asked).permitted⟩

end Chain

theorem Registry.chain_behaves {o : Options} {files : FileTree} {chain : Chain} (sel : Selector)
    (made : builtin.chain p o files = .ok chain) : chain.Behaves p sel (Heap.ofProgram p o.mergeStrings).rules
      chain.transfers { heap := Heap.ofProgram p o.mergeStrings } := by
  obtain ⟨config, makes⟩ := chain_makes made
  intro h member
  by_cases tainted : ∃ s, h = .taint s
  · obtain ⟨s, rfl⟩ := tainted
    -- one configuration is behind all handlers of the chain
    have given : ∀ s, .taint s ∈ chain → s.transfers.transfers = config.transfers := by
      intro s member
      cases makes _ member with
      | taint _ => rfl
    have same := Chain.transfers_eq member given
    cases makes _ member with
    | taint _ => exact Or.inr ⟨_, rfl, List.forall_mem_nil _, same.symm, List.forall_mem_nil _⟩
  · have plain : ∀ s, h ≠ .taint s := fun s same => tainted ⟨s, same⟩
    exact Or.inl ((makes h member).remembers _ ((makes h member).satisfied_all plain))

end PointsTo
