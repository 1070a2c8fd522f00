import PointsTo.Proofs.Hosting
import PointsTo.Proofs.Openings

/-!
Taint stays in a world. A configuration names finitely many sources, and a program has finitely many
places for them, so there are finitely many points and taint objects; passing taint on changes only the
type of an object, to one of the types of the transfers.
-/
namespace PointsTo

variable {p : Program} {sel : Selector} {rules : HeapRules} {W : World p sel rules} {f : Facts}

namespace Source

def ty : Source → Ty
  | call _ _ ty | param _ _ ty | field _ ty => ty

def ref? : Source → Option IndexRef
  | call _ index _ | param _ index _ => some index
  | field _ _ => none

def field? : Source → Option FieldId
  | field f _ => some f
  | _ => none

end Source

def Program.pointsOf (p : Program) (sources : List Source) : Finset SourcePoint :=
  (p.allSites ×ˢ (sources.filterMap Source.ref?).toFinset).image (fun x => .call x.1 x.2) ∪
    (p.allMethods ×ˢ (sources.filterMap Source.ref?).toFinset).image (fun x => .param x.1 x.2) ∪
    (p.allSites ×ˢ (sources.filterMap Source.field?).toFinset).image (fun x => .field x.1 x.2)

namespace World

/-- A place inside objects that the world knows. -/
def HasKind (W : World p sel rules) : IndexKind → Prop
  | .field f => f ∈ W.fields
  | _ => True

theorem inside?_has {kind : IndexKind} (fits : W.HasKind kind) {o : CsObjId} (known : W.HasObj o)
    {pointer : PointerRef} (found : TaintSources.inside? kind o = some pointer) :
    W.HasPointer pointer := by
  cases kind with
  | var => cases found
  | array =>
    cases found
    exact known
  | field f =>
    cases found
    exact ⟨known, fits⟩

end World

namespace TaintSources

/-- A place at which sources let taint in. -/
structure Enters (W : World p sel rules) (sources : List Source)
    (x : SourcePoint × VarId × IndexKind × Ty) : Prop where
  point : x.1 ∈ p.pointsOf sources
  var : x.2.1 ∈ p.allVars
  kind : W.HasKind x.2.2.1
  ty : ∃ source ∈ sources, source.ty = x.2.2.2

structure Stays (W : World p sel rules) (sources : List Source) (s : TaintSources × Marks) : Prop where
  same : s.1.sources = sources
  points : s.2.points.Within (p.pointsOf sources)
  marks : ∀ source ∈ sources, ∀ i < (p.pointsOf sources).card,
    W.Foreign (Obj.mock .taint (.index i) source.ty)
  kinds : ∀ source ∈ sources, ∀ r ∈ source.ref?, W.HasKind r.kind
  loads : ∀ x ∈ s.1.loads, x.1 ∈ p.allSites ∧ x.2.1 ∈ p.allVars
  pending : ∀ m ∈ s.1.pending, W.HasKind m.kind ∧ W.Foreign m.mark

variable {sources : List Source} {s : TaintSources} {marks : Marks}

theorem takes_markInside {objs : ObjSet} (inside : ∀ o ∈ objs, W.HasObj o) {kind : IndexKind}
    (fits : W.HasKind kind) {mark : Obj} (member : W.Foreign mark) :
    ∀ d ∈ markInside objs kind mark, W.Takes d := by
  intro d listed
  obtain ⟨o, held, pointer, found, rfl⟩ := mem_markInside.mp listed
  exact ⟨World.inside?_has fits (inside o held) found,
    List.forall_mem_singleton.mpr (World.hasRef_plain member)⟩

theorem enter_confined (stays : Stays W sources (s, marks)) (confined : f.Confined W) {m : PendingMark}
    (known : W.HasContext m.context) (var : m.var ∈ p.allVars) (fits : W.HasKind m.kind)
    (member : W.Foreign m.mark) :
    Stays W sources ((s.enter f m).1, marks) ∧ ∀ d ∈ (s.enter f m).2, W.Takes d := by
  unfold enter
  split
  · exact ⟨stays, List.forall_mem_singleton.mpr (World.takes_varObj known var member)⟩
  · split
    · exact ⟨stays, List.forall_mem_nil _⟩
    · refine ⟨{ stays with pending := ?_ }, ?_⟩
      · exact List.forall_mem_append.mpr ⟨stays.pending, List.forall_mem_singleton.mpr ⟨fits, member⟩⟩
      · split
        · next objs held => exact takes_markInside (confined.varPts held) fits member
        · exact List.forall_mem_nil _

theorem enterAll_confined (confined : f.Confined W) {context : ContextId} (known : W.HasContext context)
    {points : List (SourcePoint × VarId × IndexKind × Ty)} (stays : Stays W sources (s, marks))
    (enters : ∀ x ∈ points, Enters W sources x) :
    (enterAll f context (s, marks) points).Confined W (Stays W sources) := by
  induction points generalizing s marks with
  | nil => exact Reaction.confined_silent stays
  | cons x rest ih =>
    obtain ⟨point, v, kind, ty⟩ := x
    obtain ⟨first, others⟩ := List.forall_mem_cons.mp enters
    obtain ⟨source, given, rfl⟩ := first.ty
    -- the number of a point is below the number of all points
    have member : W.Foreign (marks.mark point source.ty).2 :=
      stays.marks source given _ (stays.points.intern_lt first.point)
    have marked : Stays W sources (s, (marks.mark point source.ty).1) :=
      { stays with points := stays.points.intern first.point }
    obtain ⟨stays', asked⟩ := enter_confined marked confined
      (m := ⟨context, v, kind, (marks.mark point source.ty).2⟩) known first.var first.kind member
    have later := ih stays' others
    exact ⟨later.state, List.forall_mem_cons.mpr ⟨member, later.created⟩,
      List.forall_mem_append.mpr ⟨asked, later.commands⟩⟩

variable (stays : Stays W sources (s, marks))

include stays

theorem enters_call {site : StmtRef} {call : Invoke} (calls : p.invoke? site = some call) (callee : MethodId) :
    ∀ x ∈ s.callPoints site call callee, Enters W sources x := by
  rintro ⟨a, v, kind, ty⟩ listed
  obtain ⟨index, given, var, rfl, rfl⟩ := mem_callPoints.mp listed
  rw [stays.same] at given
  have ref : index ∈ sources.filterMap Source.ref? := List.mem_filterMap.mpr ⟨_, given, rfl⟩
  refine ⟨?_, Program.mem_allVars (Index.mentions_callVar? calls var),
    stays.kinds _ given index rfl, _, given, rfl⟩
  have there := Program.mem_allSites (Program.stmt?_of_invoke? calls)
  simp only [Program.pointsOf, Finset.mem_union, Finset.mem_image, Finset.mem_product]
  exact Or.inl (Or.inl ⟨(site, index), ⟨there, List.mem_toFinset.mpr ref⟩, rfl⟩)

theorem enters_method (m : MethodId) : ∀ x ∈ s.methodPoints p m, Enters W sources x := by
  rintro ⟨a, v, kind, ty⟩ listed
  rcases mem_methodPoints.mp listed with
    ⟨body, index, code, given, var, rfl, rfl⟩ | ⟨site, g, load, _, known, rfl, rfl⟩
  · rw [stays.same] at given
    have ref : index ∈ sources.filterMap Source.ref? := List.mem_filterMap.mpr ⟨_, given, rfl⟩
    refine ⟨?_, Program.mem_allVars (Index.mentions_paramVar? code var),
      stays.kinds _ given index rfl, _, given, rfl⟩
    obtain ⟨decl, declared, _⟩ := Option.bind_eq_some_iff.mp code
    simp only [Program.pointsOf, Finset.mem_union, Finset.mem_image, Finset.mem_product]
    exact Or.inl (Or.inr ⟨(m, index), ⟨Program.mem_allMethods declared, List.mem_toFinset.mpr ref⟩, rfl⟩)
  · obtain ⟨there, var⟩ := stays.loads _ load
    have given := fieldTy?_mem known
    rw [stays.same] at given
    have loaded : g ∈ sources.filterMap Source.field? := List.mem_filterMap.mpr ⟨_, given, rfl⟩
    refine ⟨?_, var, trivial, _, given, rfl⟩
    simp only [Program.pointsOf, Finset.mem_union, Finset.mem_image, Finset.mem_product]
    exact Or.inr ⟨(site, g), ⟨there, List.mem_toFinset.mpr loaded⟩, rfl⟩

theorem Stays.recordLoad (site : StmtRef) : Stays W sources (s.recordLoad p site, marks) := by
  obtain ⟨same, pending⟩ := s.recordLoad_frame p site
  refine { stays with
    same := same.trans stays.same
    pending := fun m waits => stays.pending m (pending ▸ waits)
    loads := fun x recorded => ?_ }
  rcases mem_recordLoad.mp recorded with old | ⟨rfl, loads, _⟩
  · exact stays.loads x old
  · obtain ⟨stmt, known, written⟩ := loads.writes
    exact ⟨Program.mem_allSites known,
      Program.mem_allVars (Program.mentions_of_stmt known (Or.inr written))⟩

theorem takes_update (context : ContextId) (v : VarId) {delta : ObjSet} (inside : ∀ o ∈ delta, W.HasObj o) :
    ∀ d ∈ s.update context v delta, W.Takes d := by
  intro d listed
  obtain ⟨m, waits, asked⟩ := List.mem_flatMap.mp listed
  obtain ⟨fits, member⟩ := stays.pending m (List.mem_filter.mp waits).1
  exact takes_markInside inside fits member d asked

end TaintSources

/-- Objects of the world keep to it when they get a type. -/
def World.Retaints (W : World p sel rules) (ty : Ty) : Prop :=
  ∀ o ∈ W.objs, ∀ o', retaint? ty o = some o' → W.Foreign o'

theorem World.carries_taint {ty : Ty} (retaints : W.Retaints ty) (origin : String) (key : Nat) :
    W.Carries (.other { origin, key, transfer := some (taintTransfer ty) }) := by
  rintro t same c o d o' known member passed
  cases same
  obtain ⟨made, found, same⟩ := Option.map_eq_some_iff.mp passed
  cases same
  exact ⟨W.hasContext_empty, retaints o member _ found⟩

namespace TransferSite

structure Stays (W : World p sel rules) (t : TransferSite) : Prop where
  context : W.HasContext t.context
  source : t.source.1 ∈ p.allVars ∧ W.HasKind t.source.2
  target : t.target.1 ∈ p.allVars ∧ W.HasKind t.target.2
  retaints : W.Retaints t.ty

variable {t : TransferSite}

theorem Stays.edge (stays : t.Stays W) {a b : PointerRef} (first : W.HasPointer a)
    (second : W.HasPointer b) : W.Takes (t.edge a b) :=
  ⟨World.carries_taint stays.retaints _ _, first, second⟩

theorem hasPointer_ends (confined : f.Confined W) (known : W.HasContext t.context) {e : VarId × IndexKind}
    (place : e.1 ∈ p.allVars ∧ W.HasKind e.2) : ∀ a ∈ t.ends f e, W.HasPointer a := by
  intro a listed
  rcases mem_ends.mp listed with ⟨_, rfl⟩ | ⟨objs, held, o, member, found⟩
  · exact ⟨known, place.1⟩
  · exact World.inside?_has place.2 (confined.varPts held o member) found

theorem takes_expand (stays : t.Stays W) (confined : f.Confined W) (v : VarId) {objs : ObjSet}
    (inside : ∀ o ∈ objs, W.HasObj o) : ∀ d ∈ t.expand f v objs, W.Takes d := by
  intro d listed
  obtain ⟨a, b, rfl, ⟨_, ⟨o, member, found⟩, target⟩ | ⟨_, ⟨o, member, found⟩, source⟩⟩ :=
    mem_expand.mp listed
  · exact stays.edge (World.inside?_has stays.source.2 (inside o member) found)
      (hasPointer_ends confined stays.context stays.target b target)
  · exact stays.edge (hasPointer_ends confined stays.context stays.source a source)
      (World.inside?_has stays.target.2 (inside o member) found)

end TransferSite

namespace TaintTransfers

structure Stays (W : World p sel rules) (s : TaintTransfers) : Prop where
  transfers : ∀ t ∈ s.transfers, W.HasKind t.source.kind ∧ W.HasKind t.target.kind ∧ W.Retaints t.ty
  pending : ∀ x ∈ s.pending, x.2.Stays W

variable {s : TaintTransfers}

theorem Stays.sitesAt (stays : s.Stays W) {context : ContextId} (known : W.HasContext context)
    {site : StmtRef} {call : Invoke} (calls : p.invoke? site = some call) (callee : MethodId) :
    ∀ t ∈ s.sitesAt context call callee, t.Stays W := by
  intro t listed
  obtain ⟨x, place, _, first, second, whole⟩ := mem_sitesAt.mp listed
  obtain ⟨source, target, retaints⟩ := stays.transfers x (List.mem_of_getElem? place)
  rw [whole]
  exact ⟨known, ⟨Program.mem_allVars (Index.mentions_callVar? calls first), source⟩,
    ⟨Program.mem_allVars (Index.mentions_callVar? calls second), target⟩, retaints⟩

theorem startAll_confined (stays : s.Stays W) (confined : f.Confined W) {sites : List TransferSite}
    (fine : ∀ t ∈ sites, t.Stays W) :
    (s.startAll f sites).1.Stays W ∧ ∀ d ∈ (s.startAll f sites).2, W.Takes d := by
  refine ⟨⟨?_, fun x waits => ?_⟩, fun d asked => ?_⟩
  · rw [startAll_transfers]
    exact stays.transfers
  · exact (mem_pending_startAll.mp waits).elim (stays.pending x) fun new => fine x.2 new.1
  · obtain ⟨t, listed, a, source, b, target, rfl⟩ := mem_startAll.mp asked
    have place := fine t listed
    exact place.edge (TransferSite.hasPointer_ends confined place.context place.source a source)
      (TransferSite.hasPointer_ends confined place.context place.target b target)

theorem takes_update (stays : s.Stays W) (confined : f.Confined W) (context : ContextId) (v : VarId)
    {delta : ObjSet} (inside : ∀ o ∈ delta, W.HasObj o) :
    ∀ d ∈ s.update f context v delta, W.Takes d := by
  intro d listed
  obtain ⟨x, waits, asked⟩ := List.mem_flatMap.mp listed
  exact TransferSite.takes_expand (stays.pending x (List.mem_filter.mp waits).1) confined v inside d asked

end TaintTransfers

namespace Taint

structure Stays (W : World p sel rules) (s : Taint) : Prop where
  sources : TaintSources.Stays W s.config.sources (s.sources, s.marks)
  transfers : s.transfers.Stays W

variable {s : Taint} {context : ContextId}

theorem enter_confined (stays : s.Stays W) (confined : f.Confined W) (known : W.HasContext context)
    {points : List (SourcePoint × VarId × IndexKind × Ty)}
    (enters : ∀ x ∈ points, TaintSources.Enters W s.config.sources x) :
    (s.enter f context points).Confined W (Stays W) :=
  (TaintSources.enterAll_confined confined known stays.sources enters).map _ fun _ sources =>
    ⟨sources, stays.transfers⟩

theorem takes_sanitize (s : Taint) (known : W.HasContext context) (m : MethodId) :
    ∀ d ∈ s.sanitize p context m, W.Takes d := by
  intro d listed
  obtain ⟨t, _, _, body, code, v, var, rfl⟩ := mem_sanitize.mp listed
  exact ⟨known, Program.mem_allVars (Index.mentions_paramVar? code var)⟩

theorem call_confined (stays : s.Stays W) (confined : f.Confined W) (e : CallEdge) :
    (s.call p f e).Confined W (Stays W) := by
  have silent : Reaction.Confined W (Stays W) { state := s } := Reaction.confined_silent stays
  unfold call
  split
  · next context site _ callee known _ =>
    split
    · exact silent
    · next call calls =>
      split
      · exact silent
      · have entered := enter_confined stays confined (confined.site known)
          (TaintSources.enters_call stays.sources calls callee)
        obtain ⟨transfers, passed⟩ := TaintTransfers.startAll_confined entered.state.transfers confined
          (entered.state.transfers.sitesAt (confined.site known) calls callee)
        exact ⟨⟨entered.state.sources, transfers⟩, entered.created,
          List.forall_mem_append.mpr ⟨entered.commands, passed⟩⟩
  · exact silent

theorem react_confined (stays : s.Stays W) (confined : f.Confined W) {e : Event} (within : e.Within W) :
    (s.react p f e).Confined W (Stays W) := by
  have silent : Reaction.Confined W (Stays W) { state := s } := Reaction.confined_silent stays
  cases e with
  | stmtReached site =>
    exact Reaction.confined_silent ⟨stays.sources.recordLoad site, stays.transfers⟩
  | csMethodReached id =>
    simp only [react]
    split
    · exact silent
    · next context method known =>
      have entered := enter_confined stays confined (confined.context known)
        (TaintSources.enters_method stays.sources method)
      exact ⟨entered.state, entered.created, List.forall_mem_append.mpr ⟨entered.commands,
        takes_sanitize _ (confined.context known) method⟩⟩
  | called e => exact call_confined stays confined e
  | arrived q delta =>
    simp only [react]
    split
    · next context v known =>
      have inside := within q delta rfl
      exact ⟨stays, List.forall_mem_nil _, List.forall_mem_append.mpr
        ⟨TaintSources.takes_update stays.sources context v inside,
          TaintTransfers.takes_update stays.transfers confined context v inside⟩⟩
    · exact silent
  | _ => exact silent

end Taint

end PointsTo
