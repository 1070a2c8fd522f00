import PointsTo.Proofs.Cleanness
import PointsTo.Proofs.Hearing
import PointsTo.Proofs.Openings

/-!
Taint objects stand for the points they come from. Points get numbers as taint is let in and keep them, so
a taint object names one point, whatever its type; and every taint object of a run names a point that the
taint handler knows.
-/
namespace PointsTo

namespace Marks

variable {t u : Marks} {a b : SourcePoint} {ty ty' : Ty} {o : Obj}

def Names (t : Marks) (a : SourcePoint) (ty : Ty) (o : Obj) : Prop :=
  ∃ i, t.points.get? i = some a ∧ o = Obj.mock .taint (.index i) ty

theorem names_mark (t : Marks) (a : SourcePoint) (ty : Ty) :
    (t.mark a ty).1.Names a ty (t.mark a ty).2 := ⟨_, Table.get?_intern_self _ _, rfl⟩

theorem Names.later (names : t.Names a ty o) (grown : t.points ≤ u.points) : u.Names a ty o :=
  names.imp fun i known => ⟨grown i a known.1, known.2⟩

theorem Names.ty_eq (names : t.Names a ty o) : o.ty = ty := by
  obtain ⟨i, _, rfl⟩ := names
  rfl

theorem Names.point? (names : t.Names a ty o) : t.point? o = some a := by
  obtain ⟨i, known, rfl⟩ := names
  exact known

theorem Names.unique (first : t.Names a ty o) (second : t.Names b ty' o) : a = b :=
  Option.some.inj (first.point?.symm.trans second.point?)

theorem Names.retaint (names : t.Names a ty o) (ty' : Ty) :
    retaint? ty' o = some { o with ty := ty' } ∧ t.Names a ty' { o with ty := ty' } := by
  obtain ⟨i, known, rfl⟩ := names
  exact ⟨rfl, i, known, rfl⟩

end Marks

theorem taintTransfer_clean {ty : Ty} {c : ContextId} {o : Obj} (clean : o.isTaint = false) :
    taintTransfer ty c o = none := by
  simp [taintTransfer, retaint?, clean]

namespace TaintSources

variable {f : Facts} {s : TaintSources} {marks : Marks} {c : ContextId} {openings : List Opening}

theorem inside?_bare {kind : IndexKind} {o : CsObjId} {q : PointerRef} (inside : inside? kind o = some q) :
    q.objs = [] := by
  cases kind <;> cases inside <;> rfl

def Puts (mark : Obj) (d : Command) : Prop := ∃ q, d = .addPointsTo q [.plain mark] ∧ q.objs = []

theorem puts_markInside (objs : ObjSet) (kind : IndexKind) (mark : Obj) :
    ∀ d ∈ markInside objs kind mark, Puts mark d := by
  intro d listed
  obtain ⟨o, _, q, inside, rfl⟩ := mem_markInside.mp listed
  exact ⟨q, rfl, inside?_bare inside⟩

/-- What is pending for a variable has been put into all that the variable holds. -/
def Covers (f : Facts) (m : PendingMark) (commands : List Command) : Prop :=
  ∀ objs, f.varPts? m.context m.var = some objs → ∀ d ∈ markInside objs m.kind m.mark, d ∈ commands

/-- A variable is tainted at once, the inside of its objects now and later. -/
structure Lets (m : PendingMark) (pending : List PendingMark) (commands : List Command) : Prop where
  var : m.kind = .var → Command.varObj m.context m.var m.mark ∈ commands
  inside : m.kind ≠ .var → m ∈ pending

theorem Lets.mono {m : PendingMark} {pending pending' : List PendingMark} {commands commands' : List Command}
    (lets : Lets m pending commands) (waits : ∀ n ∈ pending, n ∈ pending')
    (asks : ∀ d ∈ commands, d ∈ commands') : Lets m pending' commands' :=
  ⟨fun kind => asks _ (lets.var kind), fun kind => waits _ (lets.inside kind)⟩

structure Marked (f : Facts) (s : TaintSources) (m : PendingMark) (r : TaintSources × List Command) :
    Prop where
  sources : r.1.sources = s.sources
  loads : r.1.loads = s.loads
  puts : ∀ d ∈ r.2, Puts m.mark d
  kept : ∀ n ∈ s.pending, n ∈ r.1.pending
  pending : ∀ n ∈ r.1.pending, n ∈ s.pending ∨ n = m ∧ Covers f m r.2
  opened : Lets m r.1.pending r.2

theorem enter_marked (f : Facts) (s : TaintSources) (m : PendingMark) : Marked f s m (s.enter f m) := by
  unfold enter
  split
  · next var =>
    exact ⟨rfl, rfl, List.forall_mem_singleton.mpr ⟨_, rfl, rfl⟩, fun _ => id, fun _ => Or.inl,
      fun _ => List.mem_singleton_self _, fun inside => absurd var inside⟩
  · next inside =>
    have kind : m.kind ≠ .var := inside
    split
    · next known =>
      exact ⟨rfl, rfl, List.forall_mem_nil _, fun _ => id, fun _ => Or.inl,
        fun var => absurd var kind, fun _ => List.contains_iff_mem.mp known⟩
    · refine ⟨rfl, rfl, fun d asked => ?_, fun n => List.mem_append_left _, fun n listed => ?_,
        fun var => absurd var kind, fun _ => List.mem_append_right _ (List.mem_singleton_self m)⟩
      · split at asked
        · exact puts_markInside _ _ _ d asked
        · cases asked
      · rcases List.mem_append.mp listed with old | new
        · exact Or.inl old
        · refine Or.inr ⟨List.mem_singleton.mp new, fun objs held d asked => ?_⟩
          rw [held]
          exact asked

/-- What is done about places in a context, one after the other. -/
structure Admits (f : Facts) (c : ContextId) (openings : List Opening) (s : TaintSources × Marks)
    (r : Reaction (TaintSources × Marks)) : Prop where
  sources : r.state.1.sources = s.1.sources
  loads : r.state.1.loads = s.1.loads
  grown : s.2.points ≤ r.state.2.points
  /-- Points become known only where taint is let in. -/
  points : ∀ i a, r.state.2.points.get? i = some a → s.2.points.get? i = some a ∨ ∃ x ∈ openings, x.1 = a
  created : ∀ o ∈ r.created, ∃ a ty, r.state.2.Names a ty o
  puts : ∀ d ∈ r.commands, ∃ a ty o, r.state.2.Names a ty o ∧ Puts o d
  kept : ∀ m ∈ s.1.pending, m ∈ r.state.1.pending
  pending : ∀ m ∈ r.state.1.pending, m ∈ s.1.pending ∨
    (∃ a ty, r.state.2.Names a ty m.mark) ∧ Covers f m r.commands
  opened : ∀ x ∈ openings, ∃ o, r.state.2.Names x.1 x.2.2.2 o ∧
    Lets ⟨c, x.2.1, x.2.2.1, o⟩ r.state.1.pending r.commands

theorem enterAll_admits (f : Facts) (c : ContextId) (openings : List Opening) (s : TaintSources)
    (marks : Marks) : Admits f c openings (s, marks) (enterAll f c (s, marks) openings) := by
  induction openings generalizing s marks with
  | nil =>
    exact ⟨rfl, rfl, Table.le_refl _, fun _ _ => Or.inl, List.forall_mem_nil _, List.forall_mem_nil _,
      fun _ => id, fun _ => Or.inl, List.forall_mem_nil _⟩
  | cons x rest ih =>
    obtain ⟨a, v, kind, ty⟩ := x
    have first := enter_marked f s ⟨c, v, kind, (marks.mark a ty).2⟩
    have later := ih (s.enter f ⟨c, v, kind, (marks.mark a ty).2⟩).1 (marks.mark a ty).1
    have names := (marks.names_mark a ty).later later.grown
    refine ⟨later.sources.trans first.sources, later.loads.trans first.loads,
      Table.le_trans (Table.le_intern _ _) later.grown, fun i b known => ?_,
      List.forall_mem_cons.mpr ⟨⟨a, ty, names⟩, later.created⟩,
      List.forall_mem_append.mpr ⟨fun d asked => ⟨a, ty, _, names, first.puts d asked⟩, later.puts⟩,
      fun m waits => later.kept m (first.kept m waits), fun m waits => ?_,
      List.forall_mem_cons.mpr ⟨⟨_, names, ?_⟩, fun y listed => ?_⟩⟩
    · rcases later.points i b known with before | ⟨y, listed, same⟩
      · rcases Table.get?_intern_inv before with old | ⟨rfl, _⟩
        · exact Or.inl old
        · exact Or.inr ⟨_, List.mem_cons_self, rfl⟩
      · exact Or.inr ⟨y, List.mem_cons_of_mem _ listed, same⟩
    · rcases later.pending m waits with before | ⟨named, covers⟩
      · rcases first.pending m before with old | ⟨rfl, covers⟩
        · exact Or.inl old
        · exact Or.inr ⟨⟨a, ty, names⟩, fun objs held d asked =>
            List.mem_append_left _ (covers objs held d asked)⟩
      · exact Or.inr ⟨named, fun objs held d asked => List.mem_append_right _ (covers objs held d asked)⟩
    · exact first.opened.mono later.kept fun d => List.mem_append_left _
    · obtain ⟨o, named, opened⟩ := later.opened y listed
      exact ⟨o, named, opened.mono (fun _ => id) fun d => List.mem_append_right _⟩

end TaintSources

namespace TransferSite

variable {f : Facts} {t : TransferSite}

/-- Passes taint on between two places as the transfer says. -/
def Passes (t : TransferSite) (d : Command) : Prop := ∃ a b, d = t.edge a b ∧ a.objs = [] ∧ b.objs = []

theorem bare_ends {e : VarId × IndexKind} : ∀ a ∈ t.ends f e, a.objs = [] := by
  intro a listed
  rcases mem_ends.mp listed with ⟨_, rfl⟩ | ⟨objs, _, o, _, inside⟩
  · rfl
  · exact TaintSources.inside?_bare inside

theorem passes_expand (v : VarId) (objs : ObjSet) : ∀ d ∈ t.expand f v objs, t.Passes d := by
  intro d listed
  obtain ⟨a, b, rfl, ⟨_, ⟨o, _, inside⟩, target⟩ | ⟨_, ⟨o, _, inside⟩, source⟩⟩ := mem_expand.mp listed
  · exact ⟨a, b, rfl, TaintSources.inside?_bare inside, bare_ends b target⟩
  · exact ⟨a, b, rfl, bare_ends a source, TaintSources.inside?_bare inside⟩

/-- A transfer joins all that its ends stand for now, and waits for the objects that come later. -/
structure Started (f : Facts) (t : TransferSite) (pending : List (VarId × TransferSite))
    (commands : List Command) : Prop where
  joins : ∀ a ∈ t.ends f t.source, ∀ b ∈ t.ends f t.target, t.edge a b ∈ commands
  waits : ∀ v ∈ TaintTransfers.waitsFor t, (v, t) ∈ pending

end TransferSite

namespace TaintTransfers

variable {f : Facts} {s : TaintTransfers}

/-- A transfer of taint at some call gives the type that is configured. -/
def Gives (s : TaintTransfers) (t : TransferSite) : Prop := ∃ x ∈ s.transfers, t.ty = x.ty

theorem gives_sitesAt (context : ContextId) (call : Invoke) (callee : MethodId) :
    ∀ t ∈ s.sitesAt context call callee, s.Gives t := by
  intro t listed
  obtain ⟨x, place, _, _, _, whole⟩ := mem_sitesAt.mp listed
  exact ⟨x, List.mem_of_getElem? place, by rw [whole]⟩

theorem passes_update (context : ContextId) (v : VarId) (delta : ObjSet) :
    ∀ d ∈ s.update f context v delta, ∃ x ∈ s.pending, x.2.Passes d := by
  intro d listed
  obtain ⟨x, waits, asked⟩ := List.mem_flatMap.mp listed
  exact ⟨x, (List.mem_filter.mp waits).1, TransferSite.passes_expand v delta d asked⟩

end TaintTransfers

namespace Taint

variable {p : Program} {f : Facts} {s : Taint} {e : Event} {config : TaintConfig} {c : ContextId}
  {openings : List Opening}

/-- An event at which taint is let in: a method is reached in a context, or a call is found that no
handler made up. -/
inductive Opens (p : Program) (f : Facts) (s : Taint) : Event → ContextId → List Opening → Prop
  | entry {id : CsMethodId} {c : ContextId} {m : MethodId} (known : f.elements.method? id = some (c, m)) :
      Opens p f s (.csMethodReached id) c (s.sources.methodPoints p m)
  | call {e : CallEdge} {c d : ContextId} {site : StmtRef} {callee : MethodId} {call : Invoke}
      (place : f.elements.site? e.site = some (c, site)) (target : f.elements.method? e.callee = some (d, callee))
      (invokes : p.invoke? site = some call) (real : e.kind ≠ .other) :
      Opens p f s (.called e) c (s.sources.callPoints site call callee)

/-- An event with which a transfer starts: a call of its method is found that no handler made up. -/
inductive Begins (p : Program) (f : Facts) (s : Taint) : Event → TransferSite → Prop
  | call {e : CallEdge} {c d : ContextId} {site : StmtRef} {callee : MethodId} {call : Invoke}
      (place : f.elements.site? e.site = some (c, site)) (target : f.elements.method? e.callee = some (d, callee))
      (invokes : p.invoke? site = some call) (real : e.kind ≠ .other) {t : TransferSite}
      (listed : t ∈ s.transfers.sitesAt c call callee) : Begins p f s (.called e) t

/-- The ways in which taint asks for something. -/
inductive Asks (p : Program) (f : Facts) (s : Taint) (e : Event) (marks : Marks) (d : Command) : Prop
  /-- Taint is let in at a place. -/
  | mark {a : SourcePoint} {ty : Ty} {o : Obj} (names : marks.Names a ty o) (puts : TaintSources.Puts o d)
  /-- New objects get the taint that is pending for them. -/
  | pending {m : PendingMark} (waits : m ∈ s.sources.pending) (puts : TaintSources.Puts m.mark d)
  | transfer {t : TransferSite} (gives : s.transfers.Gives t) (passes : t.Passes d)
  | waiting {x : VarId × TransferSite} (waits : x ∈ s.transfers.pending) (passes : x.2.Passes d)
  | sanitize {id : CsMethodId} {c : ContextId} {m : MethodId} (event : e = .csMethodReached id)
      (known : f.elements.method? id = some (c, m)) (asked : d ∈ s.sanitize p c m)

/-- All that one event does to taint. -/
structure Acts (p : Program) (f : Facts) (s : Taint) (e : Event) (r : Reaction Taint) : Prop where
  config : r.state.config = s.config
  sources : r.state.sources.sources = s.sources.sources
  transfers : r.state.transfers.transfers = s.transfers.transfers
  loads : ∀ x, x ∈ r.state.sources.loads ↔ x ∈ s.sources.loads ∨
    e = .stmtReached x.1 ∧ p.Loads x.1 x.2.1 x.2.2 ∧ (s.sources.fieldTy? x.2.2).isSome = true
  grown : s.marks.points ≤ r.state.marks.points
  points : ∀ i a, r.state.marks.points.get? i = some a → s.marks.points.get? i = some a ∨
    ∃ c openings, s.Opens p f e c openings ∧ ∃ x ∈ openings, x.1 = a
  created : ∀ o ∈ r.created, ∃ a ty, r.state.marks.Names a ty o
  asks : ∀ d ∈ r.commands, s.Asks p f e r.state.marks d
  kept : ∀ m ∈ s.sources.pending, m ∈ r.state.sources.pending
  pending : ∀ m ∈ r.state.sources.pending, m ∈ s.sources.pending ∨
    (∃ a ty, r.state.marks.Names a ty m.mark) ∧ TaintSources.Covers f m r.commands
  waits : ∀ x ∈ s.transfers.pending, x ∈ r.state.transfers.pending
  waiting : ∀ x ∈ r.state.transfers.pending, x ∈ s.transfers.pending ∨ s.transfers.Gives x.2
  begun : ∀ t, s.Begins p f e t → t.Started f r.state.transfers.pending r.commands
  opened : ∀ c openings, s.Opens p f e c openings → ∀ x ∈ openings, ∃ o,
    r.state.marks.Names x.1 x.2.2.2 o ∧
      TaintSources.Lets ⟨c, x.2.1, x.2.2.1, o⟩ r.state.sources.pending r.commands
  updates : ∀ q delta c v, e = .arrived q delta → f.elements.pointer? q = some (.var c v) →
    ∀ d ∈ s.sources.update c v delta ++ s.transfers.update f c v delta, d ∈ r.commands
  sanitizes : ∀ id c m, e = .csMethodReached id → f.elements.method? id = some (c, m) →
    ∀ d ∈ s.sanitize p c m, d ∈ r.commands

theorem Begins.opens {t : TransferSite} (begins : s.Begins p f e t) : ∃ c openings, s.Opens p f e c openings := by
  cases begins with
  | call place target invokes real => exact ⟨_, _, .call place target invokes real⟩

theorem acts_silent (shut : ∀ c openings, ¬ s.Opens p f e c openings)
    (none : ∀ site, e ≠ .stmtReached site)
    (still : ∀ q delta c v, e = .arrived q delta → f.elements.pointer? q ≠ some (.var c v))
    (idle : ∀ id c m, e = .csMethodReached id → f.elements.method? id ≠ some (c, m)) :
    Acts p f s e { state := s } where
  config := rfl
  sources := rfl
  transfers := rfl
  loads := fun x => ⟨Or.inl, fun known => known.elim id fun new => absurd new.1 (none x.1)⟩
  grown := Table.le_refl _
  points := fun _ _ => Or.inl
  created := List.forall_mem_nil _
  asks := List.forall_mem_nil _
  kept := fun _ => id
  pending := fun _ => Or.inl
  waits := fun _ => id
  waiting := fun _ => Or.inl
  begun := fun t begins => by
    obtain ⟨c, openings, opens⟩ := begins.opens
    exact absurd opens (shut c openings)
  opened := fun c openings opens => absurd opens (shut c openings)
  updates := fun q delta c v event known => absurd known (still q delta c v event)
  sanitizes := fun id c m event known => absurd known (idle id c m event)

theorem Opens.unique {d : ContextId} {others : List Opening} (first : s.Opens p f e c openings)
    (second : s.Opens p f e d others) : c = d ∧ openings = others := by
  cases first with
  | entry known =>
    cases second with
    | entry known' =>
      cases known.symm.trans known'
      exact ⟨rfl, rfl⟩
  | call place target invokes real =>
    cases second with
    | call place' target' invokes' real' =>
      cases place.symm.trans place'
      cases target.symm.trans target'
      cases invokes.symm.trans invokes'
      exact ⟨rfl, rfl⟩

/-- Taint is let in, and transfers may start or filters be asked for as well. -/
theorem acts_opened (opens : s.Opens p f e c openings) {transfers : TaintTransfers} {more : List Command}
    (given : transfers.transfers = s.transfers.transfers)
    (waits : ∀ x ∈ s.transfers.pending, x ∈ transfers.pending)
    (waiting : ∀ x ∈ transfers.pending, x ∈ s.transfers.pending ∨ s.transfers.Gives x.2)
    (begun : ∀ t, s.Begins p f e t → t.Started f transfers.pending more)
    (asks : ∀ marks, ∀ d ∈ more, s.Asks p f e marks d)
    (sanitizes : ∀ id c m, e = .csMethodReached id → f.elements.method? id = some (c, m) →
      ∀ d ∈ s.sanitize p c m, d ∈ more) :
    Acts p f s e
      { state := { (s.enter f c openings).state with transfers }
        created := (s.enter f c openings).created
        commands := (s.enter f c openings).commands ++ more } := by
  have admits := TaintSources.enterAll_admits f c openings s.sources s.marks
  have loud : (∀ site, e ≠ .stmtReached site) ∧ ∀ q delta, e ≠ .arrived q delta := by
    cases opens <;> exact ⟨nofun, nofun⟩
  exact {
    config := rfl
    sources := admits.sources
    transfers := given
    loads := fun x => by
      have same : (s.enter f c openings).state.sources.loads = s.sources.loads := admits.loads
      rw [same]
      exact ⟨Or.inl, fun known => known.elim id fun new => absurd new.1 (loud.1 x.1)⟩
    grown := admits.grown
    points := fun i a known => (admits.points i a known).imp_right fun new => ⟨c, openings, opens, new⟩
    created := admits.created
    asks := List.forall_mem_append.mpr ⟨fun d asked => by
      obtain ⟨a, ty, o, names, puts⟩ := admits.puts d asked
      exact .mark names puts, asks _⟩
    kept := admits.kept
    pending := fun m waits => (admits.pending m waits).imp_right fun ⟨named, covers⟩ =>
      ⟨named, fun objs held d asked => List.mem_append_left _ (covers objs held d asked)⟩
    waits
    waiting
    begun := fun t begins => ⟨fun a source b target =>
      List.mem_append_right _ ((begun t begins).joins a source b target), (begun t begins).waits⟩
    opened := fun d others opens' x listed => by
      obtain ⟨rfl, rfl⟩ := opens.unique opens'
      obtain ⟨o, names, lets⟩ := admits.opened x listed
      exact ⟨o, names, lets.mono (fun _ => id) fun d => List.mem_append_left _⟩
    updates := fun q delta _ _ event => absurd event (loud.2 q delta)
    sanitizes := fun id c m event known d asked =>
      List.mem_append_right _ (sanitizes id c m event known d asked) }

section

variable (p : Program) (f : Facts) (s : Taint)

theorem call_acts (e : CallEdge) : Acts p f s (.called e) (s.call p f e) := by
  have silent : (∀ c openings, ¬ s.Opens p f (.called e) c openings) →
      Acts p f s (.called e) { state := s } := fun shut => acts_silent shut nofun nofun nofun
  unfold call
  split
  · next context site d callee place target =>
    split
    · next missing =>
      refine silent fun c openings opens => ?_
      cases opens with
      | call place' target' invokes _ =>
        cases place.symm.trans place'
        cases missing.symm.trans invokes
    · next call invokes =>
      split
      · next other =>
        refine silent fun c openings opens => ?_
        cases opens with
        | call _ _ _ real => exact real other
      · next real =>
        have gives := s.transfers.gives_sitesAt context call callee
        refine acts_opened (.call place target invokes real) TaintTransfers.startAll_transfers
          (fun x waits => TaintTransfers.mem_pending_startAll.mpr (Or.inl waits)) (fun x waits => ?_)
          (fun t begins => ?_) (fun marks d asked => ?_) nofun
        · exact (TaintTransfers.mem_pending_startAll.mp waits).imp_right fun new => gives x.2 new.1
        · cases begins with
          | call place' target' invokes' _ listed =>
            cases place.symm.trans place'
            cases target.symm.trans target'
            cases invokes.symm.trans invokes'
            exact ⟨fun a source b target =>
                TaintTransfers.mem_startAll.mpr ⟨t, listed, a, source, b, target, rfl⟩,
              fun v waits => TaintTransfers.mem_pending_startAll.mpr (Or.inr ⟨listed, waits⟩)⟩
        · obtain ⟨t, listed, a, source, b, target, rfl⟩ := TaintTransfers.mem_startAll.mp asked
          exact .transfer (gives t listed)
            ⟨a, b, rfl, TransferSite.bare_ends a source, TransferSite.bare_ends b target⟩
  · next missing =>
    refine silent fun c openings opens => ?_
    cases opens with
    | call place target _ _ => exact missing _ _ _ _ place target

theorem load_acts (site : StmtRef) : Acts p f s (.stmtReached site) (s.react p f (.stmtReached site)) := by
  obtain ⟨sources, pending⟩ := s.sources.recordLoad_frame p site
  exact {
    config := rfl
    sources
    transfers := rfl
    loads := fun x => by
      rw [show x ∈ (s.react p f (.stmtReached site)).state.sources.loads ↔ _ from
        TaintSources.mem_recordLoad]
      constructor
      · rintro (old | ⟨rfl, new⟩)
        · exact Or.inl old
        · exact Or.inr ⟨rfl, new⟩
      · rintro (old | ⟨⟨⟩, new⟩)
        · exact Or.inl old
        · exact Or.inr ⟨rfl, new⟩
    grown := Table.le_refl _
    points := fun _ _ => Or.inl
    created := List.forall_mem_nil _
    asks := List.forall_mem_nil _
    kept := fun m waits => pending.symm ▸ waits
    pending := fun m waits => Or.inl (pending ▸ waits)
    waits := fun _ => id
    waiting := fun _ => Or.inl
    begun := nofun
    opened := nofun
    updates := nofun
    sanitizes := nofun }

/-- New objects at a variable are marked inside and passed on by the transfers that wait for them. -/
theorem arrival_acts (q : PointerId) (delta : ObjSet) :
    Acts p f s (.arrived q delta) (s.react p f (.arrived q delta)) := by
  simp only [react]
  split
  · next context v known =>
    exact {
      config := rfl
      sources := rfl
      transfers := rfl
      loads := fun x => ⟨Or.inl, fun known => known.elim id nofun⟩
      grown := Table.le_refl _
      points := fun _ _ => Or.inl
      created := List.forall_mem_nil _
      asks := List.forall_mem_append.mpr ⟨fun d asked => by
        obtain ⟨m, waits, asked⟩ := List.mem_flatMap.mp asked
        exact .pending (List.mem_filter.mp waits).1 (TaintSources.puts_markInside _ _ _ d asked),
        fun d asked => by
        obtain ⟨x, waits, passes⟩ := TaintTransfers.passes_update context v delta d asked
        exact .waiting waits passes⟩
      kept := fun _ => id
      pending := fun _ => Or.inl
      waits := fun _ => id
      waiting := fun _ => Or.inl
      begun := nofun
      opened := nofun
      updates := by
        rintro _ _ c w ⟨⟩ known' d asked
        cases known.symm.trans known'
        exact asked
      sanitizes := nofun }
  · next other =>
    refine acts_silent nofun nofun ?_ nofun
    rintro _ _ c v ⟨⟩ known
    exact other c v known

theorem react_acts (e : Event) : Acts p f s e (s.react p f e) := by
  cases e with
  | stmtReached site => exact load_acts p f s site
  | csMethodReached id =>
    simp only [react]
    split
    · next missing =>
      refine acts_silent (fun c openings opens => ?_) nofun nofun ?_
      · cases opens with
        | entry known => cases missing.symm.trans known
      · rintro _ c m ⟨⟩ known
        cases missing.symm.trans known
    · next context method known =>
      refine acts_opened (.entry known) rfl (fun _ waits => waits) (fun _ => Or.inl) nofun
        (fun marks d asked => .sanitize rfl known asked) ?_
      rintro _ c m ⟨⟩ known'
      cases known.symm.trans known'
      exact fun _ asked => asked
  | called e => exact call_acts p f s e
  | arrived q delta => exact arrival_acts p f s q delta
  | _ => exact acts_silent nofun nofun nofun nofun

end

/-- The handler has a point for all the taint that it keeps, and gives the types of its configuration. -/
structure Marked (config : TaintConfig) (s : Taint) : Prop where
  transfers : s.transfers.transfers = config.transfers
  pending : ∀ m ∈ s.sources.pending, ∃ a ty, s.marks.Names a ty m.mark
  waiting : ∀ x ∈ s.transfers.pending, ∃ y ∈ config.transfers, x.2.ty = y.ty

end Taint

/-- An edge that turns objects into others passes taint on with a configured type. -/
def FlowLabel.Retaints (config : TaintConfig) : FlowLabel → Prop
  | .other info => ∀ t, info.transfer = some t → ∃ x ∈ config.transfers, t = taintTransfer x.ty
  | _ => True

/-- Brings taint only from known points, and passes it on as configured. -/
structure Command.Marked (config : TaintConfig) (marks : Marks) (d : Command) : Prop where
  objs : ∀ o ∈ d.objs, ∃ a ty, marks.Names a ty o
  edge : ∀ label, d.label? = some label → label.Retaints config

namespace Taint

variable {p : Program} {f : Facts} {s : Taint} {e : Event} {config : TaintConfig} {marks : Marks}
  {d : Command}

theorem marked_puts {a : SourcePoint} {ty : Ty} {o : Obj} (names : marks.Names a ty o)
    (puts : TaintSources.Puts o d) : d.Marked config marks := by
  obtain ⟨q, rfl, bare⟩ := puts
  refine ⟨fun o' listed => ?_, nofun⟩
  obtain rfl : o' = o := by simpa [Command.objs, bare, ObjRef.plain, ObjRef.objs] using listed
  exact ⟨a, ty, names⟩

theorem marked_passes {t : TransferSite} (given : ∃ x ∈ config.transfers, t.ty = x.ty)
    (passes : t.Passes d) : d.Marked config marks := by
  obtain ⟨a, b, rfl, source, target⟩ := passes
  refine ⟨fun o listed => ?_, ?_⟩
  · simp [TransferSite.edge, Command.objs, source, target] at listed
  · rintro _ ⟨⟩ transfer ⟨⟩
    obtain ⟨x, listed, same⟩ := given
    exact ⟨x, listed, by rw [same]⟩

theorem marked_sanitize {c : ContextId} {m : MethodId} (asked : d ∈ s.sanitize p c m) :
    d.Marked config marks := by
  obtain ⟨_, _, _, _, _, v, _, rfl⟩ := mem_sanitize.mp asked
  exact ⟨List.forall_mem_nil _, nofun⟩

theorem Acts.marked {r : Reaction Taint} (acts : Acts p f s e r) (marked : s.Marked config) :
    r.state.Marked config ∧ ∀ d ∈ r.commands, d.Marked config r.state.marks := by
  have gives : ∀ t, s.transfers.Gives t → ∃ y ∈ config.transfers, t.ty = y.ty :=
    fun t given => marked.transfers ▸ given
  have named : ∀ m ∈ s.sources.pending, ∃ a ty, r.state.marks.Names a ty m.mark := by
    intro m waits
    obtain ⟨a, ty, names⟩ := marked.pending m waits
    exact ⟨a, ty, names.later acts.grown⟩
  refine ⟨⟨acts.transfers.trans marked.transfers, fun m waits => ?_, fun x waits => ?_⟩, fun d asked => ?_⟩
  · exact (acts.pending m waits).elim (named m) fun new => new.1
  · exact (acts.waiting x waits).elim (marked.waiting x) (gives x.2)
  · cases acts.asks d asked with
    | mark names puts => exact marked_puts names puts
    | pending waits puts =>
      obtain ⟨a, ty, names⟩ := named _ waits
      exact marked_puts names puts
    | transfer given passes => exact marked_passes (gives _ given) passes
    | waiting waits passes => exact marked_passes (marked.waiting _ waits) passes
    | sanitize _ _ asked => exact marked_sanitize asked

end Taint

namespace Chain

variable {p : Program} {f : Facts} {e : Event} {config : TaintConfig} {chain : Chain} {o : Obj}

/-- Taint comes from the taint handlers alone. -/
def Marked (config : TaintConfig) (chain : Chain) : Prop :=
  ∀ h ∈ chain, h.Clean ∨ ∃ s, h = .taint s ∧ s.Marked config

/-- An object is no taint, or a taint handler knows its point. -/
def Vouches (chain : Chain) (o : Obj) : Prop :=
  o.isTaint = true → ∃ s, .taint s ∈ chain ∧ ∃ a ty, s.marks.Names a ty o

def Later (before after : Chain) : Prop :=
  ∀ s, .taint s ∈ before → ∃ t, .taint t ∈ after ∧ s.marks.points ≤ t.marks.points

theorem later_react (p : Program) (e : Event) (f : Facts) (chain : Chain) :
    chain.Later (Chain.react p e f chain).state := by
  intro s listed
  rw [react_state]
  exact ⟨_, List.mem_map_of_mem listed, (Taint.react_acts p f s e).grown⟩

theorem marked_react (marked : chain.Marked config) (p : Program) (e : Event) (f : Facts) :
    (Chain.react p e f chain).state.Marked config := by
  rw [react_state]
  intro g listed
  obtain ⟨h, member, rfl⟩ := List.mem_map.mp listed
  rcases marked h member with clean | ⟨s, rfl, good⟩
  · exact Or.inl (Handler.react_clean clean p e f).2
  · exact Or.inr ⟨_, rfl, ((Taint.react_acts p f s e).marked good).1⟩

theorem vouches_created (marked : chain.Marked config)
    (made : o ∈ (Chain.react p e f chain).created) : (Chain.react p e f chain).state.Vouches o := by
  obtain ⟨h, member, made⟩ := mem_created.mp made
  rw [react_state]
  intro taint
  rcases marked h member with clean | ⟨s, rfl, good⟩
  · rw [(Handler.react_clean clean p e f).1.created o made] at taint
    cases taint
  · exact ⟨_, List.mem_map_of_mem member, (Taint.react_acts p f s e).created o made⟩

theorem vouches_commands (marked : chain.Marked config) {d : Command}
    (asked : d ∈ (Chain.react p e f chain).commands) :
    (∀ o ∈ d.objs, (Chain.react p e f chain).state.Vouches o) ∧
      ∀ label, d.label? = some label → label.Retaints config := by
  obtain ⟨h, member, asked⟩ := mem_commands.mp asked
  rw [react_state]
  rcases marked h member with clean | ⟨s, rfl, good⟩
  · have fine := (Handler.react_clean clean p e f).1.commands d asked
    refine ⟨fun o listed taint => ?_, fun label labelled => ?_⟩
    · rw [fine.objs o listed] at taint
      cases taint
    · cases label with
      | other info =>
        intro t transfer
        rw [fine.edge info labelled] at transfer
        cases transfer
      | _ => trivial
  · have fine := ((Taint.react_acts p f s e).marked good).2 d asked
    exact ⟨fun o listed _ => ⟨_, List.mem_map_of_mem member, fine.objs o listed⟩, fine.edge⟩

theorem Vouches.crosses {c d : ContextId} {ty : Ty} {o' : Obj} (vouches : chain.Vouches o)
    (passes : taintTransfer ty c o = some (d, o')) : chain.Vouches o' := by
  intro _
  by_cases taint : o.isTaint = true
  · obtain ⟨s, listed, a, ty', names⟩ := vouches taint
    obtain ⟨retaints, names'⟩ := names.retaint ty
    simp only [taintTransfer, retaints, Option.map_some, Option.some.injEq, Prod.mk.injEq] at passes
    exact ⟨s, listed, a, ty, passes.2 ▸ names'⟩
  · rw [taintTransfer_clean (Bool.not_eq_true _ ▸ taint)] at passes
    cases passes

def voucher (p : Program) (sel : Selector) (config : TaintConfig) : Voucher ⟨p, sel, Chain.handlers p⟩ where
  Good := Marked config
  Vouches := Vouches
  Carries := FlowLabel.Retaints config
  Later := Later
  refl := fun _ s listed => ⟨s, listed, Table.le_refl _⟩
  trans := fun first second s listed => by
    obtain ⟨t, listed, grown⟩ := first s listed
    obtain ⟨u, listed, grown'⟩ := second t listed
    exact ⟨u, listed, Table.le_trans grown grown'⟩
  later := fun later vouches taint => by
    obtain ⟨s, listed, a, ty, names⟩ := vouches taint
    obtain ⟨t, listed, grown⟩ := later s listed
    exact ⟨t, listed, a, ty, names.later grown⟩
  clean := fun _ o clean taint => by
    rw [clean] at taint
    cases taint
  plain := fun _ => trivial
  cast := fun _ => trivial
  crosses := fun retaints transfer vouches passes => by
    obtain ⟨x, _, rfl⟩ := retaints _ transfer
    exact vouches.crosses passes
  react := fun e f chain marked => ⟨marked_react marked p e f, later_react p e f chain,
    fun _ => vouches_created marked, fun _ => vouches_commands marked⟩
  sleeps := fun n f chain marked => phaseEnd_silent (fun h member s same => by
    rcases marked h member with clean | ⟨t, rfl, _⟩
    · rw [same] at clean
      exact clean
    · cases same) f n

end Chain

theorem Registry.chain_marked {p : Program} {o : Options} {files : FileTree} {chain : Chain}
    (made : builtin.chain p o files = .ok chain) : ∃ config, chain.Marked config := by
  obtain ⟨config, makes⟩ := chain_makes made
  refine ⟨config, fun h member => ?_⟩
  cases makes h member with
  | taint _ => exact Or.inr ⟨_, rfl, rfl, List.forall_mem_nil _, List.forall_mem_nil _⟩
  | threads => exact Or.inl nofun
  | _ => exact Or.inl trivial

end PointsTo
