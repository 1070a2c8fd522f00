import PointsTo.Proofs.Duty

/-!
The rules of the solver keep states lawful and do what they owe.
-/
namespace PointsTo

namespace Program

variable {p : Program} {m : MethodId} {v : VarId} {body : Body} {site : StmtRef} {call : Invoke}

theorem mentions_this (receives : p.this? m = some v) : p.Mentions m v := by
  obtain ⟨body, code, this⟩ := Option.bind_eq_some_iff.mp receives
  refine ⟨body, code, ?_⟩
  simp [Body.mentioned, this]

theorem mentions_param (code : p.body? m = some body) (param : v ∈ body.params) : p.Mentions m v :=
  ⟨body, code, by simp [Body.mentioned, param]⟩

theorem mentions_returned (code : p.body? m = some body) (returned : v ∈ body.returns) : p.Mentions m v :=
  ⟨body, code, by simp [Body.mentioned, returned]⟩

theorem invoke?_of_stmt? (stmt : p.stmt? site = some (.invoke call)) : p.invoke? site = some call := by
  simp [invoke?, stmt, Stmt.invoke?]

theorem stmt?_of_invoke? (calls : p.invoke? site = some call) : p.stmt? site = some (.invoke call) := by
  obtain ⟨stmt, known, same⟩ := Option.bind_eq_some_iff.mp calls
  cases stmt <;> simp_all [Stmt.invoke?]

end Program

namespace State

variable {σ : Type u} {cx : Setup σ} {R : Regime cx} {s t : State σ} {context : ContextId} {c : Frame}
  {m : MethodId} {o : CsObjId} {i : Item} {kind : CallKind} {site : StmtRef} {call : Invoke} {v lhs : VarId}
  {base q : PointerId} {delta : ObjSet} {stmt : Stmt} {a b : Pointer} {x y : Cell} {stmts : List (StmtRef × Stmt)}
  {ty : Ty}

theorem Lawful.reached (lawful : s.Lawful R) (named : s.FrameOf context c) (placed : s.Placed R.law context m) :
    R.law.holds (.reached c m) := by
  rcases placed with ⟨id, known⟩ | ⟨frame, named', excused⟩
  · obtain ⟨frame, named', inLaw⟩ := lawful.obeys (.method id context m) known
    rw [named.unique named']
    exact inLaw
  · rw [named.unique named']
    exact R.excuse frame m excused

theorem receiverIs_of_itemOf (item : s.ItemOf o i) :
    ∃ h id, s.elements.obj? o = some (h, id) ∧ s.obj? o = some i.obj ∧
      s.ReceiverIs (some ⟨h, id⟩) (some i) := by
  obtain ⟨h, described, frame⟩ := item
  obtain ⟨id, entry, found⟩ := Facts.describe?_eq_some.mp described
  exact ⟨h, id, entry, Facts.obj?_of_describe? described, found, frame⟩

theorem Lawful.callTo (lawful : s.Lawful R) {receiver : Option Receiver} {item : Option Item} {callee : MethodId}
    (named : s.FrameOf context c) (lives : s.Lives R.law context site.method) (on : s.ReceiverIs receiver item)
    (inLaw : R.law.holds (.called kind c site (cx.selector.calleeFrame cx.program c site item callee) callee)) :
    (s.callTo cx kind context site receiver callee).1.Lawful R ∧
      (s.callTo cx kind context site receiver callee).1.FrameOf
        (s.callTo cx kind context site receiver callee).2
        (cx.selector.calleeFrame cx.program c site item callee) ∧
      (s.callTo cx kind context site receiver callee).1.Interned
        (s.callTo cx kind context site receiver callee).2 callee ∧
      (s.callTo cx kind context site receiver callee).1.Due
        (.called kind c site (cx.selector.calleeFrame cx.program c site item callee) callee) := by
  -- the callee's context, the call site and the callee are interned in turn, then the call waits
  have quiet := selectCallee_quiet s cx context site receiver callee
  have lawful₁ := lawful.selectCallee site callee named on
  have frame := frameOf_selectCallee s cx site callee named on
  unfold State.callTo
  generalize s.selectCallee cx context site receiver callee = r at quiet lawful₁ frame ⊢
  obtain ⟨s₁, d⟩ := r
  dsimp only at quiet lawful₁ frame ⊢
  have named₁ := quiet.grown.frameOf named
  have lawful₂ := lawful₁.internSite named₁ (quiet.grows.lives lives)
  have sited := internSite_quiet s₁ context site
  have where_ : (s₁.internSite context site).1.SiteOf (s₁.internSite context site).2 c site :=
    ⟨context, Table.get?_intern_self _ _, sited.grown.frameOf named₁⟩
  generalize s₁.internSite context site = r at lawful₂ sited where_ ⊢
  obtain ⟨s₂, x⟩ := r
  dsimp only at lawful₂ sited where_ ⊢
  have frame₂ := sited.grown.frameOf frame
  have lawful₃ := lawful₂.internMethod frame₂ (R.closed.one Rule.reach inLaw)
  have interned := internMethod_grown s₂ d callee
  have who : (s₂.internMethod d callee).1.elements.method? (s₂.internMethod d callee).2 =
      some (d, callee) := Table.get?_intern_self _ _
  generalize s₂.internMethod d callee = r at lawful₃ interned who ⊢
  obtain ⟨s₃, m⟩ := r
  dsimp only at lawful₃ interned who ⊢
  have frame₃ := interned.frameOf frame₂
  have call : s₃.CallOf ⟨kind, x, m⟩ c site _ callee :=
    ⟨interned.siteOf where_, d, who, frame₃⟩
  have pushed := pushCall_quiet s₃ ⟨kind, x, m⟩
  refine ⟨lawful₃.pushCall call inLaw, pushed.grown.frameOf frame₃, ⟨m, who⟩, ?_⟩
  exact ⟨⟨kind, x, m⟩, rfl, pushed.grown.callOf call,
    Or.inr (List.mem_append_right _ (List.mem_singleton.mpr rfl))⟩

theorem callTo_quiet (s : State σ) (cx : Setup σ) (kind : CallKind) (context : ContextId)
    (site : StmtRef) (receiver : Option Receiver) (callee : MethodId) :
    s.Quiet (s.callTo cx kind context site receiver callee).1 :=
  (callTo_safe (p := cx.program) s cx kind context site receiver callee).toQuiet

theorem itemDone_invoke (owed : ∀ m, i.obj.ty ≠ .null → cx.program.callee? call i.obj.ty = some m →
      t.Due (.called (.ofInvoke call.kind) c site
        (cx.selector.calleeFrame cx.program c site (some i) m) m) ∧
      ∀ this, cx.program.this? m = some this → t.Due (.admitted (.var c v)
        (.var (cx.selector.calleeFrame cx.program c site (some i) m) this) i)) :
    t.ItemDone cx c site (.invoke call) v i where
  access := fun _ _ accesses => by cases accesses
  call := by
    rintro call m ⟨⟩ real resolved
    exact (owed m real resolved).1
  admits := by
    rintro call m this ⟨⟩ real resolved receives
    exact (owed m real resolved).2 this receives

theorem Lawful.callOn (lawful : s.Lawful R) (stmt : cx.program.stmt? site = some (.invoke call))
    (on : call.base = some v) (named : s.FrameOf context c) (lives : s.Lives R.law context site.method)
    (source : s.CellOf base (.var c v)) (item : s.ItemOf o i) (inLaw : R.law.holds (.points (.var c v) i)) :
    (s.callOn cx context base site call o).Lawful R ∧
      (s.callOn cx context base site call o).ItemDone cx c site (.invoke call) v i := by
  have reached := lawful.reached named lives.placed
  obtain ⟨h, id, entry, object, receiver⟩ := receiverIs_of_itemOf item
  unfold State.callOn
  rw [entry, object]
  dsimp only
  -- nothing is owed to null, nor to an object on which the call does not resolve
  split
  · next null => exact ⟨lawful, itemDone_invoke fun m real => absurd null real⟩
  · next real =>
    split
    · next unresolved =>
      refine ⟨lawful.notify _ trivial, itemDone_invoke fun m _ resolved => ?_⟩
      rw [unresolved] at resolved
      cases resolved
    · next callee resolved =>
      have calls := R.closed.two (Rule.callOn stmt on real resolved) reached inLaw
      have quiet := callTo_quiet s cx (.ofInvoke call.kind) context site (some ⟨h, id⟩) callee
      obtain ⟨lawful₁, frame, interned, due⟩ := lawful.callTo named lives receiver calls
      generalize s.callTo cx (.ofInvoke call.kind) context site _ callee = r
        at quiet lawful₁ frame interned due ⊢
      obtain ⟨s₁, d⟩ := r
      dsimp only at quiet lawful₁ frame interned due ⊢
      have only : ∀ m, cx.program.callee? call i.obj.ty = some m → m = callee :=
        fun m found => Option.some.inj (found.symm.trans resolved)
      split
      · next none =>
        refine ⟨lawful₁, itemDone_invoke fun m _ found => ?_⟩
        cases only m found
        exact ⟨due, fun this receives => by rw [none] at receives; cases receives⟩
      · next this receives =>
        -- the callee has just been interned in its context, so its `this` may be met there
        have meets := meets_var R.declared frame (Program.mentions_this receives)
          (lives_of_interned R.law interned)
        have admits := R.closed.two (Rule.admits stmt on real resolved receives) reached inLaw
        have met := internPointer_quiet s₁ (.var d this)
        have base₂ := met.grown.cellOf (quiet.grown.cellOf source)
        have this₂ := cellOf_internPointer meets.named
        have item₂ := met.grown.itemOf (quiet.grown.itemOf item)
        have ready := (met.grows.meets meets).ready (Elements.pointer?_internPointer_self _ _)
        have passed := passReceiver_quiet (s₁.internPointer (.var d this)).1 base
          (s₁.internPointer (.var d this)).2 o
        refine ⟨(lawful₁.meet meets).passReceiver base₂ this₂ ready item₂ admits inLaw,
          itemDone_invoke fun m _ found => ?_⟩
        cases only m found
        refine ⟨(met.trans passed).keeps.due due, fun this' receives' => ?_⟩
        cases Option.some.inj (receives.symm.trans receives')
        exact passReceiver_admitted base₂ this₂ item₂

theorem Lawful.callOnAll (lawful : s.Lawful R) (stmt : cx.program.stmt? site = some (.invoke call))
    (on : call.base = some v) (named : s.FrameOf context c) (lives : s.Lives R.law context site.method)
    (source : s.CellOf base (.var c v))
    (items : ∀ o ∈ delta, ∃ i, s.ItemOf o i ∧ R.law.holds (.points (.var c v) i)) :
    (s.callOnAll cx context base site call delta).Lawful R ∧
      ∀ o ∈ delta, ∃ i, s.ItemOf o i ∧
        (s.callOnAll cx context base site call delta).ItemDone cx c site (.invoke call) v i := by
  have sited := internSite_quiet s context site
  have start : ((s.internSite context site).1.Lawful R) ∧ s.Grows (s.internSite context site).1 :=
    ⟨lawful.internSite named lives, sited.grows⟩
  have all := foldl_done (f := fun t o => t.callOn cx context base site call o)
    (fun t => t.Lawful R ∧ s.Grows t)
    (fun t o => ∃ i, s.ItemOf o i ∧ t.ItemDone cx c site (.invoke call) v i)
    delta.toList ?_ ?_ start
  · exact ⟨all.1.1, all.2.2⟩
  · rintro t ⟨lawful', grows⟩ o member
    obtain ⟨i, item, inLaw⟩ := items o member
    have source' := grows.grown.cellOf source
    obtain ⟨ptr, known, _⟩ := id source'
    have quiet := (callOn_safe (p := cx.program) t cx context base site call o ⟨ptr, known⟩).toQuiet
    obtain ⟨lawful'', done⟩ := lawful'.callOn stmt on (grows.grown.frameOf named)
      (grows.lives lives) source' (grows.grown.itemOf item) inLaw
    exact ⟨⟨lawful'', grows.trans quiet.grows⟩, quiet.keeps, i, item, done⟩
  · rintro t u o keeps ⟨i, item, done⟩
    exact ⟨i, item, keeps.itemDone done⟩

theorem Lawful.callStatic (lawful : s.Lawful R) (stmt : cx.program.stmt? site = some (.invoke call))
    (static : call.base = none) (named : s.FrameOf context c) (lives : s.Lives R.law context site.method) :
    (s.callStatic cx context site call).Lawful R ∧
      (s.callStatic cx context site call).StmtDone cx R.rules c site (.invoke call) := by
  unfold State.callStatic
  split
  · next unresolved =>
    refine ⟨lawful.notify _ trivial, fun _ m resolved => ?_⟩
    rw [unresolved] at resolved
    cases resolved
  · next callee resolved =>
    have calls := R.closed.one (Rule.callStatic stmt static resolved) (lawful.reached named lives.placed)
    obtain ⟨lawful', _, _, due⟩ :=
      lawful.callTo named lives (show s.ReceiverIs none none from trivial) calls
    refine ⟨lawful', fun _ m resolved' => ?_⟩
    cases Option.some.inj (resolved.symm.trans resolved')
    exact due

theorem accessFlow?_meets {law : Law} (declared : cx.program.Scoped) (known : cx.program.stmt? site = some stmt)
    (named : s.FrameOf context c) (lives : s.Lives law context site.method) (item : s.ItemOf o i)
    {kind : FlowKind} (flow : accessFlow? context o stmt = some (kind, a, b)) :
    kind = stmt.flowKind ∧ ∃ x y, stmt.accesses? c i = some (x, y) ∧
      s.Meets cx.program law a x ∧ s.Meets cx.program law b y := by
  have var : ∀ v, v ∈ stmt.uses ∨ stmt.target? = some v →
      s.Meets cx.program law (.var context v) (.var c v) :=
    fun v used => meets_var declared named (Program.mentions_of_stmt known used) lives
  cases stmt <;> cases flow
  · exact ⟨rfl, _, _, rfl, meets_field item _, var _ (Or.inr rfl)⟩
  · exact ⟨rfl, _, _, rfl, var _ (Or.inl (by simp [Stmt.uses])), meets_field item _⟩
  · exact ⟨rfl, _, _, rfl, meets_element item, var _ (Or.inr rfl)⟩
  · exact ⟨rfl, _, _, rfl, var _ (Or.inl (by simp [Stmt.uses])), meets_element item⟩

theorem accessFlow?_of_accesses? (context : ContextId) (o : CsObjId)
    (accesses : stmt.accesses? c i = some (x, y)) :
    ∃ kind a b, accessFlow? context o stmt = some (kind, a, b) ∧
      kind ∈ [FlowKind.instanceLoad, .instanceStore, .arrayLoad, .arrayStore] := by
  cases stmt <;> cases accesses <;> exact ⟨_, _, _, rfl, by simp⟩

theorem Lawful.accessKind (lawful : s.Lawful R) (kind : FlowKind)
    (based : ∀ a ∈ stmts, cx.program.stmt? a.1 = some a.2 ∧ a.2.base? = some v ∧ s.Lives R.law context a.1.method)
    (named : s.FrameOf context c) (item : s.ItemOf o i) (inLaw : R.law.holds (.points (.var c v) i)) :
    (s.accessKind cx.program context stmts o kind).Lawful R ∧
      s.Quiet (s.accessKind cx.program context stmts o kind) ∧
      ∀ a ∈ stmts, ∀ x y, (accessFlow? context o a.2).map Prod.fst = some kind →
        a.2.accesses? c i = some (x, y) →
        (s.accessKind cx.program context stmts o kind).Linked (.plain a.2.flowKind) x y := by
  have quiet := (accessKind_safe (p := cx.program) s context stmts o kind).toQuiet
  refine And.imp And.left (fun rest => ⟨quiet, rest.2⟩) (foldl_done (fun t => t.Lawful R ∧ s.Grows t)
    (fun t a => ∀ x y, (accessFlow? context o a.2).map Prod.fst = some kind →
      a.2.accesses? c i = some (x, y) → t.Linked (.plain a.2.flowKind) x y)
    stmts ?_ ?_ ⟨lawful, Grows.refl s⟩)
  · rintro t ⟨lawful', grows⟩ ⟨site, stmt⟩ member
    obtain ⟨known, on, lives⟩ := based _ member
    have lives' := grows.lives lives
    have named' := grows.grown.frameOf named
    have item' := grows.grown.itemOf item
    have reached := lawful'.reached named' lives'.placed
    dsimp only
    split
    · next k a b flow =>
      obtain ⟨rfl, x, y, accesses, source, target⟩ :=
        accessFlow?_meets R.declared known named' lives' item' flow
      split
      · have linked := link_quiet t cx.program stmt.flowKind a b
        refine ⟨⟨lawful'.link source target (.access known on accesses reached inLaw),
          grows.trans linked.grows⟩, linked.keeps, fun x' y' _ accesses' => ?_⟩
        obtain ⟨rfl, rfl⟩ := Prod.mk.inj (Option.some.inj (accesses.symm.trans accesses'))
        exact link_linked source.named target.named
      · next other =>
        refine ⟨⟨lawful', grows⟩, Keeps.refl t, fun _ _ same _ => ?_⟩
        rw [flow] at same
        exact absurd (Option.some.inj same) other
    · next none =>
      refine ⟨⟨lawful', grows⟩, Keeps.refl t, fun _ _ same _ => ?_⟩
      rw [none] at same
      cases same
  · intro t u a keeps done x y same accesses
    exact keeps.grown.linked (done x y same accesses)

theorem Lawful.accessAll (lawful : s.Lawful R)
    (based : ∀ a ∈ stmts, cx.program.stmt? a.1 = some a.2 ∧ a.2.base? = some v ∧ s.Lives R.law context a.1.method)
    (named : s.FrameOf context c) (item : s.ItemOf o i) (inLaw : R.law.holds (.points (.var c v) i)) :
    (s.accessAll cx.program context stmts o).Lawful R ∧
      ∀ a ∈ stmts, ∀ x y, a.2.accesses? c i = some (x, y) →
        (s.accessAll cx.program context stmts o).Linked (.plain a.2.flowKind) x y := by
  have all := foldl_done (fun t => t.Lawful R ∧ s.Grows t)
    (f := fun t kind => t.accessKind cx.program context stmts o kind)
    (fun t kind => ∀ a ∈ stmts, ∀ x y, (accessFlow? context o a.2).map Prod.fst = some kind →
      a.2.accesses? c i = some (x, y) → t.Linked (.plain a.2.flowKind) x y)
    [FlowKind.instanceLoad, .instanceStore, .arrayLoad, .arrayStore] ?_ ?_ ⟨lawful, Grows.refl s⟩
  · refine ⟨all.1.1, fun a member x y accesses => ?_⟩
    obtain ⟨kind, _, _, flow, among⟩ := accessFlow?_of_accesses? context o accesses
    exact all.2.2 kind among a member x y (by rw [flow]; rfl) accesses
  · rintro t ⟨lawful', grows⟩ kind _
    obtain ⟨lawful'', quiet, done⟩ := lawful'.accessKind kind
      (fun a member => (based a member).imp_right fun on => on.imp_right grows.lives)
      (grows.grown.frameOf named) (grows.grown.itemOf item) inLaw
    exact ⟨⟨lawful'', grows.trans quiet.grows⟩, quiet.keeps, done⟩
  · intro t u kind keeps done a member x y same accesses
    exact keeps.grown.linked (done a member x y same accesses)

theorem mem_basedOn {p : Program} :
    (site, stmt) ∈ s.basedOn p v ↔
      site.method ∈ s.seen ∧ p.stmt? site = some stmt ∧ stmt.base? = some v := by
  simp only [basedOn, List.mem_filter, List.mem_flatMap, Program.mem_stmtRefs]
  constructor
  · rintro ⟨⟨m, seen, rfl, known⟩, on⟩
    refine ⟨seen, known, ?_⟩
    cases stmt <;> simp_all [Stmt.base?]
  · rintro ⟨seen, known, on⟩
    refine ⟨⟨site.method, seen, rfl, known⟩, ?_⟩
    cases stmt <;> simp_all [Stmt.base?]

theorem uses_of_base? (on : stmt.base? = some v) : v ∈ stmt.uses := by
  cases stmt <;> simp_all [Stmt.base?, Stmt.uses]

section

variable (lawful : s.Lawful R)
  (based : ∀ a ∈ stmts, cx.program.stmt? a.1 = some a.2 ∧ a.2.base? = some v ∧ s.Lives R.law context a.1.method)

include lawful based

theorem Lawful.accessEach (named : s.FrameOf context c)
    (items : ∀ o ∈ delta, ∃ i, s.ItemOf o i ∧ R.law.holds (.points (.var c v) i)) :
    let t := delta.toList.foldl (fun t o => t.accessAll cx.program context stmts o) s
    t.Lawful R ∧ s.Grows t ∧ ∀ o ∈ delta, ∃ i, s.ItemOf o i ∧
      ∀ a ∈ stmts, ∀ x y, a.2.accesses? c i = some (x, y) → t.Linked (.plain a.2.flowKind) x y := by
  have all := foldl_done (fun t => t.Lawful R ∧ s.Grows t)
    (f := fun t o => t.accessAll cx.program context stmts o)
    (fun t o => ∃ i, s.ItemOf o i ∧ ∀ a ∈ stmts, ∀ x y,
      a.2.accesses? c i = some (x, y) → t.Linked (.plain a.2.flowKind) x y)
    delta.toList ?_ ?_ ⟨lawful, Grows.refl s⟩
  · exact ⟨all.1.1, all.1.2, all.2.2⟩
  · rintro t ⟨lawful', grows⟩ o member
    obtain ⟨i, item, inLaw⟩ := items o member
    have quiet := (accessAll_safe (p := cx.program) t context stmts o).toQuiet
    obtain ⟨lawful'', done⟩ := lawful'.accessAll
      (fun a member => (based a member).imp_right fun on => on.imp_right grows.lives)
      (grows.grown.frameOf named) (grows.grown.itemOf item) inLaw
    exact ⟨⟨lawful'', grows.trans quiet.grows⟩, quiet.keeps, i, item, done⟩
  · rintro t u o keeps ⟨i, item, done⟩
    exact ⟨i, item, fun a member x y accesses => keeps.grown.linked (done a member x y accesses)⟩

theorem Lawful.callEach (known : s.elements.pointer? q = some (.var context v)) (named : s.FrameOf context c)
    (items : ∀ o ∈ delta, ∃ i, s.ItemOf o i ∧ R.law.holds (.points (.var c v) i)) :
    let t := stmts.foldl (fun t (site, stmt) => match stmt with
      | .invoke call => t.callOnAll cx context q site call delta
      | _ => t) s
    t.Lawful R ∧ s.Keeps t ∧ ∀ site call, (site, .invoke call) ∈ stmts →
      ∀ o ∈ delta, ∃ i, s.ItemOf o i ∧ t.ItemDone cx c site (.invoke call) v i := by
  have all := foldl_done (fun t => t.Lawful R ∧ s.Grows t)
    (f := fun t (a : StmtRef × Stmt) => match a.2 with
      | .invoke call => t.callOnAll cx context q a.1 call delta
      | _ => t)
    (fun t a => ∀ call, a.2 = .invoke call → ∀ o ∈ delta, ∃ i, s.ItemOf o i ∧
      t.ItemDone cx c a.1 a.2 v i)
    stmts ?_ ?_ ⟨lawful, Grows.refl s⟩
  · exact ⟨all.1.1, all.2.1, fun site call member => all.2.2 _ member call rfl⟩
  · rintro t ⟨lawful', grows⟩ ⟨site, stmt⟩ member
    obtain ⟨there, on, lives⟩ := based _ member
    cases stmt with
    | invoke call =>
      have known' : t.elements.pointer? q = some (.var context v) := grows.grown.pointers _ _ known
      have named' := grows.grown.frameOf named
      have items' : ∀ o ∈ delta, ∃ i, t.ItemOf o i ∧ R.law.holds (.points (.var c v) i) :=
        fun o inside => (items o inside).imp fun i known => known.imp_left grows.grown.itemOf
      have quiet := (callOnAll_safe (p := cx.program) t cx context q site call delta ⟨_, known'⟩).toQuiet
      obtain ⟨lawful'', done⟩ := lawful'.callOnAll there on named'
        (grows.lives lives) ⟨_, known', named', rfl⟩ items'
      refine ⟨⟨lawful'', grows.trans quiet.grows⟩, quiet.keeps, fun call' same o inside => ?_⟩
      obtain ⟨i, item, _⟩ := items o inside
      obtain ⟨i', item', owed⟩ := done o inside
      obtain rfl := (grows.grown.itemOf item).unique item'
      exact ⟨i, item, owed⟩
    | _ => exact ⟨⟨lawful', grows⟩, Keeps.refl t, nofun⟩
  · intro t u a keeps done call same o member
    obtain ⟨i, item, there⟩ := done call same o member
    exact ⟨i, item, keeps.itemDone there⟩

end

/-- New objects of a variable: every registered statement on it does what it owes them. -/
theorem Lawful.useDelta (lawful : s.Lawful R) (known : s.elements.pointer? q = some (.var context v))
    (named : s.FrameOf context c) (items : ∀ o ∈ delta, ∃ i, s.ItemOf o i ∧ R.law.holds (.points (.var c v) i)) :
    (s.useDelta cx context v q delta).Lawful R ∧
      ∀ o ∈ delta, ∃ i, s.ItemOf o i ∧ ∀ site stmt, site.method ∈ s.seen →
        cx.program.stmt? site = some stmt → stmt.base? = some v →
        (s.useDelta cx context v q delta).ItemDone cx c site stmt v i := by
  -- a registered statement on `v` belongs to the one method of `v`, which is placed with `q`
  have placed := (lawful.obeys (.pointer q (.var context v)) known).2 context v rfl
  have based : ∀ a ∈ s.basedOn cx.program v, cx.program.stmt? a.1 = some a.2 ∧ a.2.base? = some v ∧
      s.Lives R.law context a.1.method := by
    intro a member
    obtain ⟨seen, stmt, on⟩ := mem_basedOn.mp member
    have mentions := Program.mentions_of_stmt stmt (Or.inl (uses_of_base? on))
    exact ⟨stmt, on, placed _ mentions, Or.inr seen⟩
  obtain ⟨lawful₁, grows, linked⟩ := lawful.accessEach based named items
  obtain ⟨lawful₂, kept, called⟩ := lawful₁.callEach (q := q)
    (fun a member => (based a member).imp_right fun on => on.imp_right grows.lives)
    (grows.grown.pointers _ _ known) (grows.grown.frameOf named) fun o member =>
      (items o member).imp fun i known => known.imp_left grows.grown.itemOf
  refine ⟨lawful₂, fun o member => ?_⟩
  obtain ⟨i, item, accesses⟩ := linked o member
  refine ⟨i, item, fun site stmt seen there on => ?_⟩
  have inside : (site, stmt) ∈ s.basedOn cx.program v := mem_basedOn.mpr ⟨seen, there, on⟩
  cases stmt with
  | invoke call =>
    obtain ⟨i', item', done⟩ := called site call inside o member
    obtain rfl := (grows.grown.itemOf item).unique item'
    exact done
  | _ =>
    exact ⟨fun x y flow => kept.grown.linked (accesses _ inside x y flow), fun _ _ => nofun,
      fun _ _ _ => nofun⟩

theorem Lawful.place (lawful : s.Lawful R) {ptr : Pointer} (meets : s.Meets cx.program R.law ptr x)
    (item : s.ItemOf o i) (inLaw : R.law.holds (.points x i)) :
    let t := (s.internPointer ptr).1.pushPoints (s.internPointer ptr).2 (ObjSet.singleton o)
    t.Lawful R ∧ t.Due (.points x i) := by
  have quiet := internPointer_quiet s ptr
  have cell := cellOf_internPointer meets.named
  have item' := quiet.grown.itemOf item
  refine ⟨(lawful.meet meets).pushPoints fun o' member => ?_, ?_⟩
  · cases ObjSet.mem_singleton.mp member
    exact ⟨x, i, cell, item', inLaw, Or.inl ((quiet.grows.meets meets).ready
      (Elements.pointer?_internPointer_self _ _))⟩
  · exact pushPoints_due cell item' (ObjSet.mem_singleton.mpr rfl)

theorem itemOf_internDescribed {c : ContextId} {frame : Frame} (o : Obj) (named : s.FrameOf c frame) :
    (s.internDescribed c o).1.ItemOf (s.internDescribed c o).2 ⟨frame, o⟩ :=
  ⟨c, describe?_internDescribed s c o, (internDescribed_quiet s c o).grown.frameOf named⟩

variable (lawful : s.Lawful R)

include lawful

theorem Lawful.runNew (known : cx.program.stmt? site = some (.new lhs ty)) (named : s.FrameOf context c)
    (interned : s.Interned context site.method) :
    (s.runStmt cx context site (.new lhs ty)).Lawful R ∧
      (s.runStmt cx context site (.new lhs ty)).StmtDone cx R.rules c site (.new lhs ty) := by
  -- `s₁` has the object, `s₂` its heap context; then the two are paired and put on their way
  have inLaw := R.closed.one (Rule.new known)
    (lawful.reached named (Or.inl interned))
  have made := internObj_quiet s (s.heap.rules.allocated site ty)
  have lawful₁ := lawful.internObj (s.heap.rules.allocated site ty)
  have object : (s.internObj (s.heap.rules.allocated site ty)).1.heap.get?
      (s.internObj (s.heap.rules.allocated site ty)).2 = some (R.rules.allocated site ty) := by
    rw [← lawful.rules]
    exact Table.get?_intern_self _ _
  simp only [runStmt]
  generalize s.internObj (s.heap.rules.allocated site ty) = r at made lawful₁ object ⊢
  obtain ⟨s₁, o⟩ := r
  dsimp only at made lawful₁ object ⊢
  have named₁ := made.grown.frameOf named
  have chosen := made.trans (selectHeap_quiet s₁ cx context site.method)
  have lawful₂ := lawful₁.selectHeap site.method named₁
  have frame := frameOf_selectHeap s₁ cx site.method named₁
  have kept : (s₁.selectHeap cx context site.method).1.heap = s₁.heap := rfl
  generalize s₁.selectHeap cx context site.method = r at chosen lawful₂ frame kept ⊢
  obtain ⟨s₂, h⟩ := r
  dsimp only at chosen lawful₂ frame kept ⊢
  have object₂ : s₂.heap.get? o = some (R.rules.allocated site ty) :=
    (congrArg (Heap.get? · o) kept).trans object
  have described := internCsObj_quiet s₂ h o
  have item : (s₂.internCsObj h o).1.ItemOf (s₂.internCsObj h o).2
      ⟨cx.selector.heapFrame c site.method, R.rules.allocated site ty⟩ :=
    ⟨h, Facts.describe?_eq_some.mpr ⟨o, Table.get?_intern_self _ _, object₂⟩,
      described.grown.frameOf frame⟩
  have lodges : Item.Lodges cx.program cx.selector s₂.heap.rules
      ⟨cx.selector.heapFrame c site.method, R.rules.allocated site ty⟩ :=
    Or.inr ⟨c, site, lhs, ty, known, by rw [lawful₂.rules]⟩
  have all := chosen.trans described
  exact (lawful₂.internCsObj frame object₂ lodges).place
    (meets_var R.declared (all.grown.frameOf named) (Program.mentions_of_stmt known (Or.inr rfl))
      (lives_of_interned R.law (all.grown.interned interned))) item inLaw

theorem Lawful.runLiteral {value : Literal} (known : cx.program.stmt? site = some (.literal lhs value))
    (named : s.FrameOf context c) (interned : s.Interned context site.method) :
    (s.runStmt cx context site (.literal lhs value)).Lawful R ∧
      (s.runStmt cx context site (.literal lhs value)).StmtDone cx R.rules c site
        (.literal lhs value) := by
  by_cases constant : value.isConstant = true
  · have inLaw := R.closed.one (Rule.literal known constant)
      (lawful.reached named (Or.inl interned))
    have empty := s.frameOf_empty
    have quiet := internDescribed_quiet s ContextTable.emptyId (s.heap.rules.constant value)
    have placed := (lawful.internDescribed (s.heap.rules.constant value) empty).place
      (meets_var R.declared (quiet.grown.frameOf named)
        (Program.mentions_of_stmt known (Or.inr rfl))
        (lives_of_interned R.law (quiet.grown.interned interned)))
      (itemOf_internDescribed (s.heap.rules.constant value) empty) (lawful.rules ▸ inLaw)
    rw [StmtDone, ← lawful.rules]
    cases value <;> first
      | exact ⟨placed.1, fun _ => placed.2⟩
      | cases constant
  · -- numbers and null are left to handlers
    cases value <;> first
      | exact absurd rfl constant
      | exact ⟨lawful, nofun⟩

theorem Lawful.runMove (known : cx.program.stmt? site = some stmt) (moves : stmt.moves? c = some (x, y))
    (named : s.FrameOf context c) (interned : s.Interned context site.method)
    (source : s.Meets cx.program R.law a x) (target : s.Meets cx.program R.law b y) :
    (s.link cx.program stmt.flowKind a b).Lawful R ∧
      ∀ x' y', stmt.moves? c = some (x', y') →
        (s.link cx.program stmt.flowKind a b).Linked (.plain stmt.flowKind) x' y' := by
  have reached := lawful.reached named (Or.inl interned)
  refine ⟨lawful.link source target (.move known moves reached), fun x' y' moves' => ?_⟩
  obtain ⟨rfl, rfl⟩ := Prod.mk.inj (Option.some.inj (moves.symm.trans moves'))
  exact link_linked source.named target.named

theorem Lawful.runCast {rhs : VarId} (known : cx.program.stmt? site = some (.cast lhs rhs ty))
    (named : s.FrameOf context c) (interned : s.Interned context site.method) :
    (s.runStmt cx context site (.cast lhs rhs ty)).Lawful R ∧
      (s.runStmt cx context site (.cast lhs rhs ty)).Linked (.cast ty) (.var c rhs) (.var c lhs) := by
  have reached := lawful.reached named (Or.inl interned)
  have lives := lives_of_interned (s := s) R.law interned
  have source := meets_var R.declared named
    (Program.mentions_of_stmt (v := rhs) known (Or.inl (by simp [Stmt.uses]))) lives
  have target := meets_var R.declared named (Program.mentions_of_stmt (v := lhs) known (Or.inr rfl)) lives
  have first := internPointer_quiet s (.var context rhs)
  have second := internPointer_quiet (s.internPointer (.var context rhs)).1 (.var context lhs)
  have target₁ := first.grows.meets target
  have from_ := second.grown.cellOf (cellOf_internPointer source.named)
  have to_ := cellOf_internPointer target₁.named
  have flows : FlowRule cx.program R.law.holds (.cast ty) (.var c rhs) (.var c lhs) := .cast known reached
  refine ⟨((lawful.meet source).meet target₁).addFlow from_ to_ ?_ (flows.allows R.closed) (Or.inl flows), ?_⟩
  · exact (second.grows.meets target₁).ready (Elements.pointer?_internPointer_self _ _)
  · exact addFlow_linked (e := ⟨FlowLabel.cast ty, _, _⟩)
      (fun _ _ _ same => FlowEdge.label_of_identity same nofun) from_ to_

theorem Lawful.runStmt (known : cx.program.stmt? site = some stmt) (named : s.FrameOf context c)
    (interned : s.Interned context site.method) :
    (s.runStmt cx context site stmt).Lawful R ∧
      (s.runStmt cx context site stmt).StmtDone cx R.rules c site stmt := by
  have var : ∀ v, v ∈ stmt.uses ∨ stmt.target? = some v →
      s.Meets cx.program R.law (.var context v) (.var c v) :=
    fun v used => meets_var R.declared named (Program.mentions_of_stmt known used)
      (lives_of_interned R.law interned)
  cases stmt with
  | new lhs ty => exact lawful.runNew known named interned
  | literal lhs value => exact lawful.runLiteral known named interned
  | cast lhs rhs ty => exact lawful.runCast known named interned
  | copy lhs rhs =>
    exact lawful.runMove known rfl named interned (var rhs (Or.inl (by simp [Stmt.uses])))
      (var lhs (Or.inr rfl))
  | loadStatic lhs f =>
    exact lawful.runMove known rfl named interned (meets_static f) (var lhs (Or.inr rfl))
  | storeStatic f rhs =>
    exact lawful.runMove known rfl named interned
      (var rhs (Or.inl (by simp [Stmt.uses]))) (meets_static f)
  | invoke call =>
    simp only [State.runStmt]
    split
    · next static =>
      exact lawful.callStatic known (Option.isNone_iff_eq_none.mp static) named
        (lives_of_interned R.law interned)
    · next based =>
      refine ⟨lawful, fun static => absurd ?_ based⟩
      simp [Invoke.isStatic, static]
  | _ => exact ⟨lawful, fun _ _ moves => by cases moves⟩

theorem Lawful.linkAll {α : Type} (items : List α) (kind : FlowKind) (a b : α → Pointer) (x y : α → Cell)
    (source : ∀ k ∈ items, s.Meets cx.program R.law (a k) (x k))
    (target : ∀ k ∈ items, s.Meets cx.program R.law (b k) (y k))
    (flows : ∀ k ∈ items, FlowRule cx.program R.law.holds (.plain kind) (x k) (y k)) :
    let t := items.foldl (fun t k => t.link cx.program kind (a k) (b k)) s
    t.Lawful R ∧ s.Keeps t ∧ ∀ k ∈ items, t.Linked (.plain kind) (x k) (y k) := by
  have all := foldl_done (fun t => t.Lawful R ∧ s.Grows t)
    (f := fun t k => t.link cx.program kind (a k) (b k)) (fun t k => t.Linked (.plain kind) (x k) (y k))
    items ?_ (fun _ _ _ keeps linked => keeps.grown.linked linked) ⟨lawful, Grows.refl s⟩
  · exact ⟨all.1.1, all.2⟩
  · rintro t ⟨lawful', grows⟩ k member
    have quiet := link_quiet t cx.program kind (a k) (b k)
    have source' := grows.meets (source k member)
    have target' := grows.meets (target k member)
    exact ⟨⟨lawful'.link source' target' (flows k member), grows.trans quiet.grows⟩, quiet.keeps,
      link_linked source'.named target'.named⟩

theorem Lawful.passArguments {caller callee : ContextId} {d : Frame} {body : Body}
    (inLaw : R.law.holds (.called kind c site d m)) (passes : kind ≠ .other)
    (calls : cx.program.invoke? site = some call) (code : cx.program.body? m = some body)
    (from_ : s.FrameOf caller c) (to_ : s.FrameOf callee d) (here : s.Lives R.law caller site.method)
    (there : s.Lives R.law callee m) : let t := s.passArguments cx.program caller call callee body
    t.Lawful R ∧
      (∀ arg param, (arg, param) ∈ call.args.zip body.params →
        t.Linked (.plain .parameterPassing) (.var c arg) (.var d param)) ∧
      ∀ result returned, call.result = some result → returned ∈ body.returns →
        t.Linked (.plain .ret) (.var d returned) (.var c result) := by
  have stmt := Program.stmt?_of_invoke? calls
  have near : ∀ v, v ∈ call.args ∨ call.result = some v →
      s.Meets cx.program R.law (.var caller v) (.var c v) := by
    intro v used
    refine meets_var R.declared from_ (Program.mentions_of_stmt stmt (used.imp ?_ ?_)) here
    · exact fun arg => List.mem_append_right _ arg
    · exact fun result => result
  have far : ∀ v, v ∈ body.params ∨ v ∈ body.returns →
      s.Meets cx.program R.law (.var callee v) (.var d v) := by
    intro v used
    refine meets_var R.declared to_ ?_ there
    exact used.elim (Program.mentions_param code) (Program.mentions_returned code)
  obtain ⟨lawful₁, kept, params⟩ := lawful.linkAll (call.args.zip body.params)
    .parameterPassing (fun k => .var caller k.1) (fun k => .var callee k.2)
    (fun k => .var c k.1) (fun k => .var d k.2)
    (fun k member => near _ (Or.inl (List.of_mem_zip member).1))
    (fun k member => far _ (Or.inl (List.of_mem_zip member).2))
    (fun k member => .param passes calls code member inLaw)
  unfold State.passArguments
  dsimp only
  split
  · next none =>
    refine ⟨lawful₁, fun arg param member => params _ member, fun result _ some => ?_⟩
    rw [none] at some
    cases some
  · next result answer =>
    obtain ⟨lawful₂, kept₂, results⟩ := lawful₁.linkAll body.returns .ret
      (fun k => .var callee k) (fun _ => .var caller result) (fun k => .var d k)
      (fun _ => .var c result)
      (fun k member => kept.meets (far k (Or.inr member)))
      (fun _ _ => kept.meets (near result (Or.inr answer)))
      (fun k member => .ret passes calls code answer member inLaw)
    refine ⟨lawful₂, fun arg param member => kept₂.grown.linked (params _ member),
      fun result' returned answer' member => ?_⟩
    cases Option.some.inj (answer.symm.trans answer')
    exact results returned member

end State

end PointsTo
