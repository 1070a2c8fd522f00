import PointsTo.Proofs.Lawful

/-!
What a state has settled (a reached method, a held object, a recorded call) owes the rules something. A
lawful run that takes calls before points pays all of it at once, since the statements on a variable are
registered before objects come to it.
-/
namespace PointsTo

inductive Deed
  | reached (id : CsMethodId)
  | held (q : PointerId) (o : CsObjId)
  | recorded (e : CallEdge)

namespace State

variable {σ : Type u} {cx : Setup σ} {R : Regime cx} {s t u : State σ} {x : Deed} {m : MethodId}
  {context : ContextId} {c : Frame} {e : CallEdge} {q : PointerId}

def Settled (s : State σ) : Deed → Prop
  | .reached id => id ∈ s.calls.reachable
  | .held q o => s.Holds q o
  | .recorded e => e ∈ s.calls.edges

theorem settled_of_same (same : s.toFacts = t.toFacts) (settled : s.Settled x) : t.Settled x := by
  cases x with
  | held q o =>
    rw [Settled, Holds, ← same]
    exact settled
  | _ =>
    rw [Settled, ← same]
    exact settled

/-- Everything owed to a deed is done. Injected objects are owed nothing. -/
def Paid (R : Regime cx) (s : State σ) : Deed → Prop
  | .reached id => ∀ c m, s.MethodOf id c m → m ∈ s.seen ∧ ∀ site stmt, site.method = m →
      cx.program.stmt? site = some stmt → s.StmtDone cx R.rules c site stmt
  | .held q o => ∀ c v i, s.CellOf q (.var c v) → s.ItemOf o i →
      R.law.injected (.points (.var c v) i) ∨ ∀ site stmt, cx.program.stmt? site = some stmt →
        stmt.base? = some v → s.ItemDone cx c site stmt v i
  | .recorded e => ∀ c site d m, s.CallOf e c site d m → s.CallDone cx e.kind c site d m

theorem Keeps.paid (keeps : s.Keeps t) (lawful : s.Lawful R) (settled : s.Settled x) (paid : s.Paid R x) :
    t.Paid R x := by
  have grown := keeps.grown
  -- in each case the names in `t` are those in `s`: a lawful state names all it has, and names stay
  cases x with
  | reached id =>
    intro c m named
    obtain ⟨context, m', known⟩ := lawful.obeys (.reachable id) settled
    obtain ⟨c', frame, _⟩ := lawful.obeys (.method id context m') known
    have before : s.MethodOf id c' m' := ⟨context, known, frame⟩
    obtain ⟨rfl, rfl⟩ := (grown.methodOf before).unique named
    obtain ⟨seen, stmts⟩ := paid c' m' before
    exact ⟨keeps.seen _ seen, fun site stmt here there => keeps.stmtDone (stmts site stmt here there)⟩
  | held q o =>
    intro c v i cell item
    obtain ⟨x, i', cell', item', _⟩ := lawful.obeys (.points q o) (Or.inl settled)
    obtain rfl := (grown.cellOf cell').unique cell
    obtain rfl := (grown.itemOf item').unique item
    refine (paid c v i' cell' item').imp_right fun done site stmt there on => ?_
    exact keeps.itemDone (done site stmt there on)
  | recorded e =>
    intro c site d m named
    obtain ⟨c', site', d', m', ⟨from_, to_⟩, _⟩ := lawful.obeys (.call e) (Or.inl settled)
    obtain ⟨rfl, rfl⟩ := (grown.siteOf from_).unique named.1
    obtain ⟨rfl, rfl⟩ := (grown.methodOf to_).unique named.2
    exact keeps.callDone (paid c' site' d' m' ⟨from_, to_⟩)

/-- The handler was told that a method is reachable, and what it asked for is queued. -/
def Told (cx : Setup σ) (s : State σ) (id : CsMethodId) : Prop :=
  ∃ f h, f.Extends s.toFacts ∧ (∃ x, f.elements.method? id = some x) ∧
    ∀ c ∈ (cx.handlers.react (.csMethodReached id) f h).commands, c ∈ s.queue

/-- A change that pays for all it settles, calls every method it makes known, and tells of those it
reaches. -/
structure Proceeds (R : Regime cx) (s t : State σ) : Prop extends s.Keeps t where
  settled : ∀ x, t.Settled x → s.Settled x ∨ t.Paid R x
  awaits : ∀ id, s.Awaits id → t.Awaits id
  fresh : ∀ id x, t.elements.method? id = some x → s.elements.method? id = some x ∨ t.Awaits id
  queue : ∀ c ∈ s.queue, c ∈ t.queue
  told : ∀ id ∈ t.calls.reachable, id ∈ s.calls.reachable ∨ t.Told cx id

theorem Proceeds.refl (R : Regime cx) (s : State σ) : s.Proceeds R s :=
  ⟨Keeps.refl s, fun _ known => Or.inl known, fun _ known => known, fun _ _ known => Or.inl known,
    fun _ known => known, fun _ known => Or.inl known⟩

theorem Told.later {id : CsMethodId} (told : s.Told cx id) (grown : s.toFacts.Extends t.toFacts)
    (queue : ∀ c ∈ s.queue, c ∈ t.queue) : t.Told cx id := by
  obtain ⟨f, h, before, known, asked⟩ := told
  exact ⟨f, h, before.trans grown, known, fun c member => queue c (asked c member)⟩

theorem Proceeds.trans (first : s.Proceeds R t) (lawful : t.Lawful R) (second : t.Proceeds R u) :
    s.Proceeds R u where
  toKeeps := first.toKeeps.trans second.toKeeps
  settled := by
    intro x known
    rcases second.settled x known with before | paid
    · rcases first.settled x before with older | paid
      · exact Or.inl older
      · exact Or.inr (second.toKeeps.paid lawful before paid)
    · exact Or.inr paid
  awaits := fun id known => second.awaits id (first.awaits id known)
  fresh := by
    intro id x known
    rcases second.fresh id x known with before | awaited
    · exact (first.fresh id x before).imp_right (second.awaits id)
    · exact Or.inr awaited
  queue := fun c known => second.queue c (first.queue c known)
  told := by
    intro id reachable
    rcases second.told id reachable with before | told
    · exact (first.told id before).imp_right fun told => told.later second.grown second.queue
    · exact Or.inr told

theorem Quiet.proceeds (quiet : s.Quiet t) : s.Proceeds R t where
  toKeeps := quiet.keeps
  settled := by
    intro x known
    cases x with
    | held q o => exact Or.inl (quiet.holds_iff.mp known)
    | _ =>
      rw [Settled, quiet.calls] at known
      exact Or.inl known
  awaits := fun _ => quiet.awaits
  fresh := quiet.fresh
  queue := quiet.queue
  told := fun _ reachable => Or.inl (quiet.calls ▸ reachable)

/-- Lawful, with every debt paid and every known method reachable or called. -/
structure Settles (R : Regime cx) (s : State σ) : Prop extends s.Lawful R where
  paid : ∀ x, s.Settled x → s.Paid R x
  awaited : ∀ id x, s.elements.method? id = some x → s.Awaits id

theorem Settles.keeps (settles : s.Settles R) (lawful : t.Lawful R) (keeps : s.Keeps t)
    (settled : ∀ x, t.Settled x → s.Settled x ∨ t.Paid R x)
    (awaited : ∀ id x, t.elements.method? id = some x → t.Awaits id) : t.Settles R where
  toLawful := lawful
  paid := by
    intro x known
    rcases settled x known with before | paid
    · exact keeps.paid settles.toLawful before (settles.paid x before)
    · exact paid
  awaited := awaited

theorem Settles.proceeds (settles : s.Settles R) (lawful : t.Lawful R) (proceeds : s.Proceeds R t) :
    t.Settles R := by
  refine settles.keeps lawful proceeds.toKeeps proceeds.settled fun id x known => ?_
  rcases proceeds.fresh id x known with before | awaited
  · exact proceeds.awaits id (settles.awaited id x before)
  · exact awaited

theorem foldl_proceeds {α : Type v} {f : State σ → α → State σ} (items : List α) (lawful : s.Lawful R)
    (step : ∀ t : State σ, t.Lawful R → s.Grows t → ∀ a ∈ items,
      (f t a).Lawful R ∧ t.Proceeds R (f t a)) :
    (items.foldl f s).Lawful R ∧ s.Proceeds R (items.foldl f s) := by
  refine List.foldlRecOn (motive := fun t => t.Lawful R ∧ s.Proceeds R t) items f
    ⟨lawful, Proceeds.refl R s⟩ ?_
  rintro t ⟨lawful₁, proceeds⟩ a member
  obtain ⟨lawful₂, next⟩ := step t lawful₁ proceeds.toGrows a member
  exact ⟨lawful₂, proceeds.trans lawful₁ next⟩

theorem Lawful.registerMethod (lawful : s.Lawful R)
    (reached : ∃ id ∈ s.calls.reachable, ∃ c, s.elements.method? id = some (c, m)) :
    (s.registerMethod cx m).Lawful R ∧ s.Proceeds R (s.registerMethod cx m) ∧
      m ∈ (s.registerMethod cx m).seen := by
  unfold State.registerMethod
  split
  · next known => exact ⟨lawful, Proceeds.refl R s, List.contains_iff_mem.mp known⟩
  · have grows : s.Grows { s with seen := s.seen ++ [m] } :=
      ⟨Facts.Extends.refl _, fun _ member => List.mem_append_left _ member⟩
    have lawful₁ : State.Lawful R { s with seen := s.seen ++ [m] } :=
      lawful.grow grows rfl (fun _ => rfl) rfl fun x has => Or.inl (by cases x <;> exact has)
    have proceeds₁ : s.Proceeds R { s with seen := s.seen ++ [m] } :=
      ⟨⟨grows, fun _ _ known => known, fun _ known => known⟩,
        fun x known => Or.inl (by cases x <;> exact known), fun _ known => known,
        fun _ _ known => Or.inl known, fun _ known => known, fun _ known => Or.inl known⟩
    -- from here on handlers are told, of the method and then of each statement
    have new : m ∈ s.seen ++ [m] := List.mem_append_right _ (List.mem_singleton.mpr rfl)
    have lawful₂ := lawful₁.notify (.methodReached m) reached
    have proceeds₂ := proceeds₁.trans lawful₁ (notify_quiet _ cx (.methodReached m)).proceeds
    obtain ⟨lawful₃, proceeds₃⟩ := foldl_proceeds
      (f := fun t (a : StmtRef × Stmt) => t.notify cx (.stmtReached a.1)) (cx.program.stmtRefs m)
      lawful₂ fun t known _ a _ => ⟨known.notify _ trivial, (notify_quiet t cx _).proceeds⟩
    exact ⟨lawful₃, proceeds₂.trans lawful₂ proceeds₃, proceeds₃.seen m new⟩

theorem Lawful.runAll (lawful : s.Lawful R) (named : s.FrameOf context c) (interned : s.Interned context m) :
    let t := (cx.program.stmtRefs m).foldl (fun t (site, stmt) => t.runStmt cx context site stmt) s
    t.Lawful R ∧ s.Quiet t ∧ ∀ site stmt, site.method = m → cx.program.stmt? site = some stmt →
      t.StmtDone cx R.rules c site stmt := by
  have all := foldl_done (fun t => t.Lawful R ∧ s.Quiet t)
    (f := fun t (a : StmtRef × Stmt) => t.runStmt cx context a.1 a.2)
    (fun t a => t.StmtDone cx R.rules c a.1 a.2) (cx.program.stmtRefs m) ?_
    (fun _ _ _ keeps done => keeps.stmtDone done) ⟨lawful, Quiet.refl s⟩
  · refine ⟨all.1.1, all.1.2, fun site stmt here there => ?_⟩
    exact all.2.2 (site, stmt) (Program.mem_stmtRefs.mpr ⟨here, there⟩)
  · rintro t ⟨lawful', quiet⟩ ⟨site, stmt⟩ member
    obtain ⟨rfl, known⟩ := Program.mem_stmtRefs.mp member
    have ran := (runStmt_safe t cx context site stmt).toQuiet
    obtain ⟨lawful'', done⟩ := lawful'.runStmt known (quiet.grown.frameOf named)
      (quiet.grown.interned interned)
    exact ⟨⟨lawful'', quiet.trans ran⟩, ran.keeps, done⟩

/-- The state in which a method is marked reachable and nothing has been done about it. -/
def marking (s : State σ) (id : CsMethodId) : State σ :=
  { s with calls := (s.calls.addReachable id).1 }

theorem marking_keeps (s : State σ) (id : CsMethodId) : s.Keeps (s.marking id) := by
  refine ⟨⟨Facts.extends_addReachable s.toFacts id, fun _ member => member⟩,
    fun _ _ there => there, fun e there => there.imp_left fun recorded => ?_⟩
  exact (Facts.extends_addReachable s.toFacts id).calls e recorded

theorem mem_marking {id x : CsMethodId} :
    x ∈ (s.marking id).calls.reachable ↔ x ∈ s.calls.reachable ∨ x = id := by
  unfold marking
  rcases CallGraph.addReachable_cases s.calls id with ⟨before, equal⟩ | ⟨new, equal⟩
  · rw [equal]
    exact ⟨Or.inl, fun known => known.elim (fun old => old) fun same => same ▸ before⟩
  · rw [equal]
    simp

theorem edges_marking (id : CsMethodId) : (s.marking id).calls.edges = s.calls.edges := by
  unfold marking
  rcases CallGraph.addReachable_cases s.calls id with ⟨_, equal⟩ | ⟨_, equal⟩ <;> rw [equal]

theorem entries_marking (id : CsMethodId) : (s.marking id).calls.entries = s.calls.entries := by
  unfold marking
  rcases CallGraph.addReachable_cases s.calls id with ⟨_, equal⟩ | ⟨_, equal⟩ <;> rw [equal]

theorem Lawful.marking (lawful : s.Lawful R) {id : CsMethodId} {x : ContextId × MethodId}
    (known : s.elements.method? id = some x) : (s.marking id).Lawful R := by
  refine lawful.grow (marking_keeps s id).toGrows rfl (fun _ => rfl) rfl fun y has => ?_
  cases y with
  | reachable id' =>
    rcases mem_marking.mp has with old | rfl
    · exact Or.inl old
    · exact Or.inr ⟨x.1, x.2, known⟩
  | call e =>
    rw [Has, edges_marking] at has
    exact Or.inl has
  | start id' =>
    rw [Has, entries_marking] at has
    exact Or.inl has
  | _ => exact Or.inl has

theorem reach_known {id : CsMethodId} (known : id ∈ s.calls.reachable) : s.reach cx id = s := by
  unfold State.reach
  rcases CallGraph.addReachable_cases s.calls id with ⟨_, equal⟩ | ⟨new, _⟩
  · rw [equal]
    rfl
  · exact absurd known new

theorem reach_new {id : CsMethodId} (new : id ∉ s.calls.reachable)
    (known : s.elements.method? id = some (context, m)) :
    s.reach cx id = State.notify ((cx.program.stmtRefs m).foldl
      (fun t (site, stmt) => t.runStmt cx context site stmt)
      ((s.marking id).registerMethod cx m)) cx (.csMethodReached id) := by
  unfold State.reach State.marking
  rcases CallGraph.addReachable_cases s.calls id with ⟨before, _⟩ | ⟨_, equal⟩
  · exact absurd before new
  · rw [equal]
    dsimp only
    rw [if_pos rfl, known]

theorem Lawful.reach (lawful : s.Lawful R) {id : CsMethodId} (known : s.elements.method? id = some (context, m)) :
    (s.reach cx id).Lawful R ∧ s.Proceeds R (s.reach cx id) ∧
      id ∈ (s.reach cx id).calls.reachable := by
  by_cases before : id ∈ s.calls.reachable
  · rw [reach_known before]
    exact ⟨lawful, Proceeds.refl R s, before⟩
  rw [reach_new before known]
  obtain ⟨c, named, _⟩ := lawful.obeys (.method id context m) known
  -- `s₁` has the method registered, `s₂` has its statements carried out; then the handler is told
  have marked := marking_keeps s id
  obtain ⟨lawful₁, registered, seen⟩ :=
    (lawful.marking known).registerMethod ⟨id, mem_marking.mpr (Or.inr rfl), context, known⟩
  generalize (s.marking id).registerMethod cx m = s₁ at lawful₁ registered seen ⊢
  have grown := (marked.toGrows.trans registered.toGrows).grown
  obtain ⟨lawful₂, ran, done⟩ := lawful₁.runAll (grown.frameOf named) (grown.interned ⟨id, known⟩)
  generalize (cx.program.stmtRefs m).foldl _ s₁ = s₂ at lawful₂ ran done ⊢
  have told' := notify_quiet s₂ cx (.csMethodReached id)
  have later := registered.trans lawful₁ (R := R) (ran.trans told').proceeds
  have reached : id ∈ (s₂.notify cx (.csMethodReached id)).calls.reachable :=
    later.grown.reachable id (mem_marking.mpr (Or.inr rfl))
  have paid : (s₂.notify cx (.csMethodReached id)).Paid R (.reached id) := by
    intro c' m' named'
    obtain ⟨rfl, rfl⟩ := ((grown.trans (ran.trans told').grown).methodOf ⟨context, known, named⟩).unique
      named'
    exact ⟨(ran.trans told').grows.seen _ seen,
      fun site stmt here there => told'.keeps.stmtDone (done site stmt here there)⟩
  have told : (s₂.notify cx (.csMethodReached id)).Told cx id :=
    ⟨s₂.toFacts, s₂.handler, told'.grown, ⟨_, (grown.trans ran.grown).methods _ _ known⟩,
      fun c member => List.mem_append_right _ member⟩
  refine ⟨lawful₂.notify _ reached,
    ⟨marked.trans later.toKeeps, fun x settled => ?_, ?_, ?_, later.queue, fun x reachable => ?_⟩,
    reached⟩
  · -- of all that is settled after the mark, the mark itself is the one new deed
    rcases later.settled x settled with earlier | paid
    · cases x with
      | reached id' =>
        rcases mem_marking.mp earlier with old | rfl
        · exact Or.inl old
        · exact Or.inr paid
      | held q o => exact Or.inl earlier
      | recorded e =>
        rw [Settled, edges_marking] at earlier
        exact Or.inl earlier
    · exact Or.inr paid
  · exact fun id' awaited =>
      later.awaits id' (awaited.imp_left fun old => mem_marking.mpr (Or.inl old))
  · exact later.fresh
  · rcases later.told x reachable with earlier | known'
    · rcases mem_marking.mp earlier with old | rfl
      · exact Or.inl old
      · exact Or.inr told
    · exact Or.inr known'

theorem recording_keeps (s : State σ) (e : CallEdge) : s.Keeps (s.recording e) := by
  refine ⟨⟨Facts.extends_addEdge s.toFacts e, fun _ member => member⟩,
    fun _ _ there => there, fun d there => there.imp_left fun recorded => ?_⟩
  exact (Facts.extends_addEdge s.toFacts e).calls d recorded

theorem mem_recording {d : CallEdge} : d ∈ (s.recording e).calls.edges ↔ d ∈ s.calls.edges ∨ d = e := by
  unfold recording
  rcases CallGraph.addEdge_cases s.calls e with ⟨before, equal⟩ | ⟨new, equal⟩
  · rw [equal]
    exact ⟨Or.inl, fun known => known.elim (fun old => old) fun same => same ▸ before⟩
  · rw [equal]
    simp

theorem reachable_recording (e : CallEdge) :
    (s.recording e).calls.reachable = s.calls.reachable := by
  unfold recording
  rcases CallGraph.addEdge_cases s.calls e with ⟨_, equal⟩ | ⟨_, equal⟩ <;> rw [equal]

theorem entries_recording (e : CallEdge) : (s.recording e).calls.entries = s.calls.entries := by
  unfold recording
  rcases CallGraph.addEdge_cases s.calls e with ⟨_, equal⟩ | ⟨_, equal⟩ <;> rw [equal]

theorem Lawful.recording (lawful : s.Lawful R) (obeys : s.Obeys cx R.law (.call e)) :
    (s.recording e).Lawful R := by
  have grows := (recording_keeps s e).toGrows
  refine lawful.grow grows rfl (fun _ => rfl) rfl fun x has => ?_
  cases x with
  | reachable id =>
    rw [Has, reachable_recording] at has
    exact Or.inl has
  | start id =>
    rw [Has, entries_recording] at has
    exact Or.inl has
  | call d =>
    rcases has with recorded | waiting
    · rcases mem_recording.mp recorded with old | rfl
      · exact Or.inl (Or.inl old)
      · exact Or.inr (grows.obeys obeys)
    · exact Or.inl (Or.inr waiting)
  | _ => exact Or.inl has

theorem Lawful.passing (lawful : s.Lawful R) {d : Frame} {site : StmtRef} (named : s.CallOf e c site d m)
    (inLaw : R.law.holds (.called e.kind c site d m)) (reached : s.Due (.reached d m)) :
    (s.passing cx e).Lawful R ∧ (s.passing cx e).CallDone cx e.kind c site d m := by
  obtain ⟨⟨caller, place, from_⟩, callee, method, to_⟩ := named
  -- the caller's own variables may be met, since its call site is lawful
  have here := (lawful.obeys (.site e.site caller site) place).2
  have kept := (passing_safe s cx e).toQuiet.keeps.due reached
  unfold State.passing at kept ⊢
  split
  · next other =>
    exact ⟨lawful, reached, fun passes => absurd other passes, fun passes => absurd other passes⟩
  · next passes =>
    rw [if_neg passes] at kept
    rw [place, method] at kept ⊢
    dsimp only at kept ⊢
    split
    · next call body calls code =>
      rw [calls, code] at kept
      obtain ⟨lawful', params, results⟩ := lawful.passArguments inLaw passes calls code from_ to_ here
        (lives_of_interned R.law ⟨e.callee, method⟩)
      refine ⟨lawful', kept, fun _ call' body' arg param calls' code' pair => ?_,
        fun _ call' body' result returned calls' code' answer member => ?_⟩
      · cases Option.some.inj (calls.symm.trans calls')
        cases Option.some.inj (code.symm.trans code')
        exact params arg param pair
      · cases Option.some.inj (calls.symm.trans calls')
        cases Option.some.inj (code.symm.trans code')
        exact results result returned answer member
    · next missing =>
      exact ⟨lawful, reached,
        fun _ call body _ _ calls code => absurd code (missing call body calls),
        fun _ call body _ _ calls code => absurd code (missing call body calls)⟩

theorem Lawful.processCall (lawful : s.Lawful R) (obeys : s.Obeys cx R.law (.call e)) :
    (s.processCall cx e).Lawful R ∧ s.Proceeds R (s.processCall cx e) ∧
      e ∈ (s.processCall cx e).calls.edges := by
  by_cases before : e ∈ s.calls.edges
  · rw [processCall_known before]
    exact ⟨lawful, Proceeds.refl R s, before⟩
  rw [processCall_new before]
  obtain ⟨c, site, d, m, named, inLaw⟩ := obeys
  -- the callee is reached before arguments are passed, so its parameters may be met
  have recorded := recording_keeps s e
  have lawful₁ := lawful.recording ⟨c, site, d, m, named, inLaw⟩
  have named₁ := recorded.grown.callOf named
  obtain ⟨callee, method, to_⟩ := named₁.2
  obtain ⟨lawful₂, proceeds, reachable⟩ := lawful₁.reach method
  have named₂ := proceeds.grown.callOf named₁
  obtain ⟨lawful₃, done⟩ := lawful₂.passing named₂ inLaw ⟨e.callee, named₂.2, reachable⟩
  have passed := (passing_safe ((s.recording e).reach cx e.callee) cx e).toQuiet
  generalize ((s.recording e).reach cx e.callee).passing cx e = s₃ at lawful₃ done passed ⊢
  have told := notify_quiet s₃ cx (.called e)
  have later := proceeds.trans lawful₂ (passed.trans told).proceeds
  have whole := recorded.trans later.toKeeps
  refine ⟨lawful₃.notify _ ((proceeds.trans lawful₂ passed.proceeds).grown.calls e
      (mem_recording.mpr (Or.inr rfl))),
      ⟨whole, fun x settled => ?_, ?_, later.fresh, later.queue, fun id reachable => ?_⟩, ?_⟩
  · rcases later.settled x settled with earlier | paid
    · cases x with
      | reached id =>
        rw [Settled, reachable_recording] at earlier
        exact Or.inl earlier
      | held q o => exact Or.inl earlier
      | recorded e' =>
        rcases mem_recording.mp earlier with old | rfl
        · exact Or.inl old
        · refine Or.inr fun c' site' d' m' named' => ?_
          obtain ⟨rfl, rfl⟩ := (whole.grown.siteOf named.1).unique named'.1
          obtain ⟨rfl, rfl⟩ := (whole.grown.methodOf named.2).unique named'.2
          exact told.keeps.callDone done
    · exact Or.inr paid
  · exact fun id awaited =>
      later.awaits id (awaited.imp_left fun old => (reachable_recording e).symm ▸ old)
  · exact (later.told id reachable).imp_left fun before => (reachable_recording e) ▸ before
  · exact later.grown.calls e (mem_recording.mpr (Or.inr rfl))

theorem filled_keeps {set : ObjSet} (known : ∀ o ∈ set, s.Knows q) : s.Keeps (s.filled q set) :=
  ⟨⟨filled_grown s q set, fun _ member => member⟩, fun _ _ => delivered_filled known,
    fun _ there => there⟩

/-- The new objects of a pointer are put to use if it is a variable. -/
def applying (s : State σ) (cx : Setup σ) (q : PointerId) (delta : ObjSet) : State σ :=
  match s.elements.pointer? q with
  | some (.var context v) => s.useDelta cx context v q delta
  | _ => s

theorem applying_quiet (s : State σ) (cx : Setup σ) (q : PointerId) (delta : ObjSet) :
    s.Quiet (s.applying cx q delta) := by
  unfold State.applying
  split
  · next context v found => exact (useDelta_safe s cx context v q delta ⟨_, found⟩).toQuiet
  · exact Quiet.refl s

theorem Lawful.applying (lawful : s.Lawful R) {delta : ObjSet} {x : Cell} (cell : s.CellOf q x)
    (items : ∀ o ∈ delta, ∃ i, s.ItemOf o i ∧ R.law.holds (.points x i)) :
    (s.applying cx q delta).Lawful R ∧ ∀ o ∈ delta, ∀ c v i, x = .var c v → s.ItemOf o i →
      ∀ site stmt, site.method ∈ s.seen → cx.program.stmt? site = some stmt → stmt.base? = some v →
        (s.applying cx q delta).ItemDone cx c site stmt v i := by
  obtain ⟨ptr, known, named⟩ := cell
  unfold State.applying
  rw [known]
  cases ptr with
  | var context v =>
    cases x with
    | var c w =>
      obtain ⟨frame, rfl⟩ := named
      obtain ⟨lawful', done⟩ := lawful.useDelta known frame items
      refine ⟨lawful', fun o member c' v' i same item site stmt seen there on => ?_⟩
      cases same
      obtain ⟨i', item', all⟩ := done o member
      obtain rfl := item.unique item'
      exact all site stmt seen there on
    | _ => exact named.elim
  | _ =>
    refine ⟨lawful, fun o member c v i same => ?_⟩
    subst same
    exact named.elim

theorem processPoints_eq (s : State σ) (cx : Setup σ) (q : PointerId) (set : ObjSet) :
    s.processPoints cx q set = if (s.news q set).isEmpty then s.filled q set
      else State.notify
        (((s.filled q set).sendAll cx.program q (s.news q set)).applying cx q (s.news q set))
        cx (.arrived q (s.news q set)) := by
  unfold State.processPoints
  rw [receive_eq]
  by_cases none : (s.news q set).isEmpty = true
  · rw [if_pos none, if_pos none]
    exact if_pos none
  · rw [if_neg none, if_neg none]
    exact if_neg none

theorem settled_filled {set : ObjSet} (known : ∀ o ∈ set, s.Knows q) (settled : (s.filled q set).Settled x) :
    s.Settled x ∨ ∃ o ∈ s.news q set, x = .held q o := by
  cases x with
  | held r o =>
    by_cases before : s.Holds r o
    · exact Or.inl before
    · rcases (holds_filled known).mp settled with old | ⟨rfl, member⟩
      · exact absurd old before
      · exact Or.inr ⟨o, mem_news.mpr ⟨member, before⟩, rfl⟩
  | _ => exact Or.inl settled

theorem registered_of_ready {p : Program} {v : VarId} (registered : ∀ c m, s.Interned c m → m ∈ s.seen)
    (ready : s.Ready p q) (cell : s.CellOf q (.var c v)) (mentions : p.Mentions m v) : m ∈ s.seen := by
  obtain ⟨ptr, found, named⟩ := cell
  cases ptr with
  | var context w =>
    obtain ⟨_, rfl⟩ := named
    exact (ready context w found m mentions).elim (registered context m) fun seen => seen
  | _ => exact named.elim

theorem knows_of_arrives {set : ObjSet} (arrives : ∀ o ∈ set, s.Obeys cx R.law (.points q o)) :
    ∀ o ∈ set, s.Knows q := by
  intro o member
  obtain ⟨_, _, ⟨ptr, found, _⟩, _⟩ := arrives o member
  exact ⟨ptr, found⟩

theorem filled_delivers {set : ObjSet} (arrives : ∀ o ∈ set, s.Obeys cx R.law (.points q o)) :
    ∀ o ∈ set, (s.filled q set).Delivered q o := by
  intro o member
  obtain ⟨_, i, _, ⟨c, described, _⟩, _⟩ := arrives o member
  by_cases refused : s.Refuses q o
  · exact Or.inr (Or.inr (refuses_filled.mpr refused))
  · exact Or.inl ((holds_filled (knows_of_arrives arrives)).mpr
      (Or.inr ⟨rfl, (mem_admitted ⟨_, described⟩).mpr ⟨member, refused⟩⟩))

/-- Objects that come to a pointer are put there unless a filter refuses them, sent on and put to use.
If every known method is registered, nothing about them is left to do. -/
theorem Lawful.processPoints (lawful : s.Lawful R) {set : ObjSet}
    (arrives : ∀ o ∈ set, s.Obeys cx R.law (.points q o)) :
    (s.processPoints cx q set).Lawful R ∧ s.Keeps (s.processPoints cx q set) ∧
      (∀ o ∈ set, (s.processPoints cx q set).Delivered q o) ∧
      ((∀ c m, s.Interned c m → m ∈ s.seen) → s.Proceeds R (s.processPoints cx q set)) := by
  have known := knows_of_arrives arrives
  have keeps := filled_keeps known
  have inside := filled_delivers arrives
  have arrives' : ∀ o ∈ s.news q set, s.Obeys cx R.law (.points q o) :=
    fun o member => arrives o (subset_of_admitted (mem_news.mp member).1)
  have lawful₁ := lawful.filled arrives
  rw [processPoints_eq]
  split
  · next none =>
    refine ⟨lawful₁, keeps, inside, fun _ => ⟨keeps, fun x settled => ?_, fun _ awaited => awaited,
      fun _ _ known => Or.inl known, fun _ known => known, fun _ known => Or.inl known⟩⟩
    refine (settled_filled known settled).imp_right fun ⟨o, member, _⟩ => ?_
    exact absurd member (ObjSet.isEmpty_iff.mp none o)
  · next some_ =>
    have sent := sendAll_quiet (p := cx.program) (s.filled q set) q (s.news q set)
    have held : ∀ o ∈ s.news q set, (s.filled q set).Holds q o :=
      fun o member => (holds_filled known).mpr (Or.inr ⟨rfl, (mem_news.mp member).1⟩)
    have lawful₂ := lawful₁.sendAll held
    have grown := keeps.grown.trans sent.grown
    generalize (s.filled q set).sendAll cx.program q (s.news q set) = s₂ at sent lawful₂ grown ⊢
    -- one of the new objects tells which cell `q` is
    obtain ⟨y, cell⟩ : ∃ y, s.CellOf q y := by
      obtain ⟨o, member⟩ := Classical.not_forall_not.mp fun all => some_ (ObjSet.isEmpty_iff.mpr all)
      obtain ⟨y, _, cell, _⟩ := arrives' o member
      exact ⟨y, cell⟩
    have items : ∀ o ∈ s.news q set, ∃ i, s₂.ItemOf o i ∧ R.law.holds (.points y i) := by
      intro o member
      obtain ⟨y', i, cell', item, inLaw, _⟩ := arrives' o member
      obtain rfl := cell.unique cell'
      exact ⟨i, grown.itemOf item, inLaw⟩
    obtain ⟨lawful₃, done⟩ := lawful₂.applying (grown.cellOf cell) items
    have used := applying_quiet s₂ cx q (s.news q set)
    generalize s₂.applying cx q (s.news q set) = s₃ at lawful₃ done used ⊢
    have told := notify_quiet s₃ cx (.arrived q (s.news q set))
    have quiet := (sent.trans used).trans told
    refine ⟨lawful₃.notify _ ?_, keeps.trans quiet.keeps,
      fun o member => quiet.delivered (inside o member), fun registered =>
        ⟨keeps.trans quiet.keeps, fun x settled => ?_, fun _ => quiet.awaits, quiet.fresh, quiet.queue,
          (quiet.proceeds (R := R)).told⟩⟩
    · exact fun o member => (sent.trans used).holds_iff.mpr (held o member)
    · rcases quiet.proceeds (R := R) |>.settled x settled with earlier | paid
      · refine (settled_filled known earlier).imp_right ?_
        rintro ⟨o, member, rfl⟩ c v i cell' item
        have whole := grown.trans (used.trans told).grown
        obtain ⟨y', i', cell'', item', _, place⟩ := arrives' o member
        obtain rfl := cell.unique cell''
        obtain rfl := (whole.cellOf cell).unique cell'
        obtain rfl := (whole.itemOf item').unique item
        -- a variable that is ready belongs to a known method, and all those are registered
        rcases place with ready | injected
        · refine Or.inr fun site stmt there on => told.keeps.itemDone ?_
          have seen := registered_of_ready registered ready cell
            (Program.mentions_of_stmt there (Or.inl (uses_of_base? on)))
          exact done o member c v i' rfl (grown.itemOf item') site stmt (sent.grows.seen _ seen) there on
        · exact Or.inl injected
      · exact Or.inr paid

end State

end PointsTo
