import PointsTo.Proofs.Promptness
import PointsTo.Proofs.Reachability

/-!
No call is dropped. At the end of a run, every call that a reachable method makes, on an object of its
base or without base, is recorded as a call of its target or warned about; and every warning is about a
call without target.
-/
namespace PointsTo

variable {σ : Type u}

namespace Facts

def Records (f : Facts) (kind : CallKind) (c : ContextId) (site : StmtRef) (m : MethodId) : Prop :=
  ∃ e ∈ f.calls.edges, e.kind = kind ∧ f.elements.site? e.site = some (c, site) ∧
    ∃ d, f.elements.method? e.callee = some (d, m)

def target? (f : Facts) (p : Program) (call : Invoke) : Option CsObjId → Option MethodId
  | none => p.resolve? call.target
  | some o => (f.obj? o).bind fun obj => p.callee? call obj.ty

/-- A reachable method makes a call, without base or on an object that its base holds and that is not
null. -/
inductive Performs (f : Facts) (p : Program) (c : ContextId) (site : StmtRef) (call : Invoke) :
    Option CsObjId → Prop
  | static (reaches : f.Reaches c site.method) (stmt : p.stmt? site = some (.invoke call))
      (free : call.base = none) : Performs f p c site call none
  | on {o : CsObjId} {v : VarId} {q : PointerId} {obj : Obj} (reaches : f.Reaches c site.method)
      (stmt : p.stmt? site = some (.invoke call)) (based : call.base = some v)
      (pointer : f.elements.pointer? q = some (.var c v)) (held : f.elements.Holds q o)
      (object : f.obj? o = some obj) (real : obj.ty ≠ .null) : Performs f p c site call (some o)

def warning (f : Facts) (p : Program) (site : StmtRef) (call : Invoke) (receiver : Option CsObjId) :
    Warning where
  site
  callee := p.refSignature call.target
  receiverTy := (receiver.bind f.obj?).map fun o => p.tyName o.ty

variable {f g : Facts} {p : Program} {c : ContextId} {site : StmtRef} {call : Invoke}
  {receiver : Option CsObjId}

theorem Extends.warning (grown : f.Extends g) (missing : f.Missing p call receiver) :
    g.warning p site call receiver = f.warning p site call receiver := by
  cases receiver with
  | none => rfl
  | some o =>
    obtain ⟨_, obj, _, object, _⟩ := missing
    simp [Facts.warning, object, grown.obj? object]

theorem Performs.stmt (performs : f.Performs p c site call receiver) :
    p.stmt? site = some (.invoke call) := by
  cases performs <;> assumption

theorem Unresolved.missing (unresolved : f.Unresolved p c site receiver)
    (stmt : p.stmt? site = some (.invoke call)) : f.Missing p call receiver := by
  cases unresolved with
  | static same missing _ | on same missing _ _ _ =>
    cases same.symm.trans stmt
    exact missing

theorem Performs.unresolved (performs : f.Performs p c site call receiver)
    (none : f.target? p call receiver = none) : f.Unresolved p c site receiver := by
  cases performs with
  | static reaches stmt free => exact .static stmt ⟨free, none⟩ reaches
  | on reaches stmt based pointer held object real =>
    simp only [target?, object, Option.bind_some] at none
    exact .on stmt ⟨_, _, based, object, real, none⟩ based pointer held

/-- What is held by a variable is held in a method that is reachable, so an unresolved call is made. -/
theorem Unresolved.performs (unresolved : f.Unresolved p c site receiver) (connected : f.Connected p)
    (declared : p.Scoped) (stmt : p.stmt? site = some (.invoke call)) :
    f.Performs p c site call receiver ∧ f.target? p call receiver = none := by
  have missing := unresolved.missing stmt
  cases unresolved with
  | static _ _ reaches => exact ⟨.static reaches stmt missing.1, missing.2⟩
  | on same _ based pointer held =>
    cases same.symm.trans stmt
    obtain ⟨_, obj, _, object, real, none⟩ := missing
    obtain ⟨decl, found, reaches⟩ := connected.vars _ _ _ pointer
    obtain ⟨body, code, member⟩ := Program.mentions_of_stmt stmt (Or.inl (State.uses_of_base? based))
    have owner := declared _ body code _ member
    rw [found, Option.map_some, Option.some.injEq] at owner
    rw [owner] at reaches
    refine ⟨.on reaches stmt based pointer held object real, ?_⟩
    simpa only [target?, object, Option.bind_some] using none

end Facts

namespace State

variable {σ : Type u} {cx : Setup σ} {R : Regime cx} {s : State σ} {c : ContextId} {site : StmtRef} {m : MethodId}

theorem records_of_found {kind : CallKind} {frame d : Frame} (named : s.FrameOf c frame)
    (found : s.Found (.called kind frame site d m)) : s.Records kind c site m := by
  obtain ⟨e, recorded, same, ⟨context, place, frameOf⟩, callee, method, _⟩ := found
  cases frameOf.inj named
  exact ⟨e, recorded, same, place, callee, method⟩

theorem Stands.records (stands : s.Stands R) (pure : ∀ x, ¬ R.law.injected x) {call : Invoke}
    {receiver : Option CsObjId} (performs : s.Performs cx.program c site call receiver)
    (target : s.target? cx.program call receiver = some m) : s.Records (.ofInvoke call.kind) c site m := by
  cases performs with
  | static reaches stmt free =>
    -- the statements of a reachable method have been run in every context of it
    obtain ⟨id, reachable, known⟩ := reaches
    obtain ⟨frame, named, _⟩ := stands.obeys (.method id c site.method) known
    have done := stands.toSettles.stmtDone ⟨id, ⟨c, known, named⟩, reachable⟩ stmt
    exact records_of_found named (stands.toHalts.called (done free m target))
  | @on o v q obj reaches stmt based pointer held object real =>
    obtain ⟨cell, i, ⟨ptr, known, is⟩, item, _⟩ := stands.obeys (.points _ _) (Or.inl held)
    cases known.symm.trans pointer
    cases cell with
    | var frame w =>
      obtain ⟨named, rfl⟩ := is
      -- the item has the type that the call is dispatched on
      obtain ⟨h, described, _⟩ := id item
      cases (Facts.obj?_of_describe? described).symm.trans object
      simp only [Facts.target?, object, Option.bind_some] at target
      have found : s.Found (.points (.var frame v) i) := ⟨q, o, ⟨_, pointer, named, rfl⟩, item, held⟩
      have done := (stands.toSettles.itemDone found stmt based).resolve_left (pure _)
      exact records_of_found named (stands.toHalts.called (done.call call m rfl real target))
    | _ => exact is.elim

end State

namespace Chronicle

variable {σ : Type u} {p : Program} {law : Law} {rules : HeapRules} {record : List (Moment σ)} {t : Facts}
  {receiver : Option CsObjId} {c : ContextId} {site : StmtRef}

theorem unresolved (chronicle : Chronicle p law rules record t) {x : Moment σ} (listed : x ∈ record)
    (event : x.event = .unresolved receiver c site) : x.facts.Unresolved p c site receiver := by
  obtain ⟨past, fits⟩ := chronicle.proper.fits listed
  exact fits.of_event event

/-- Every unresolved call was told of: without base when its method was reached, and on an object when
the object came to the base. -/
theorem tells (chronicle : Chronicle p law rules record t) (unresolved : t.Unresolved p c site receiver) :
    Tells record (.unresolved receiver c site) := by
  have before : ∀ {past x rest e}, record = past ++ x :: rest → Tells past e → Tells record e := by
    rintro past x rest e rfl ⟨y, listed, event⟩
    exact ⟨y, List.mem_append_left _ listed, event⟩
  cases unresolved with
  | static stmt missing reaches =>
    obtain ⟨id, reachable, known⟩ := reaches
    obtain ⟨past, x, rest, cut, picked⟩ := mem_told.mp ((chronicle.accounts.csMethods.2 id).mpr reachable)
    have fits := (chronicle.proper past x rest cut).1
    obtain ⟨_, c', m, method, _, _, warned⟩ := fits.of_event (Event.csMethod?_eq_some.mp picked)
    cases ((chronicle.below cut).methods _ _ method).symm.trans known
    exact before cut (warned site _ rfl stmt missing)
  | @on call o v q stmt missing based pointer held =>
    obtain ⟨delta, told, member⟩ := (chronicle.accounts.union q o).mp held
    obtain ⟨past, x, rest, cut, picked⟩ := mem_told.mp told
    have event := Event.delta?_eq_some.mp picked
    have fits := (chronicle.proper past x rest cut).1
    obtain ⟨_, there, _, warned⟩ := fits.of_event event
    -- the pointer and the object were known when the object came
    have grown := (chronicle.below cut).toExtends
    have sane := (chronicle.soundAt cut).sane
    obtain ⟨_, _, ⟨ptr, known, _⟩, ⟨h, described, _⟩, _⟩ := sane.held q o (there o member)
    cases (grown.pointers _ _ known).symm.trans pointer
    have mentions := Program.mentions_of_stmt stmt (Or.inl (State.uses_of_base? based))
    have registered := (chronicle.timely past x rest cut q delta c v _ event known mentions).1
    exact before cut (warned o member c site call v known registered stmt based
      (grown.missing_before described missing))

end Chronicle

namespace Warnings

variable {σ : Type u} {p : Program} {s : Warnings} {record : List (Moment σ)} {w : Warning}

theorem mem_add {v : Warning} : v ∈ (s.add w).given ↔ v ∈ s.given ∨ v = w := by
  unfold add
  split
  · next known =>
    constructor
    · exact Or.inl
    · rintro (old | rfl)
      · exact old
      · exact List.contains_iff_mem.mp known
  · simp

theorem add_nodup (distinct : s.given.Nodup) : (s.add w).given.Nodup := by
  unfold add
  split
  · exact distinct
  · next new =>
    have fresh : w ∉ s.given := fun member => new (List.contains_iff_mem.mpr member)
    exact distinct.append (List.nodup_singleton w) (by simpa using fresh)

def Arises (p : Program) (x : Moment σ) (w : Warning) : Prop :=
  ∃ receiver c site call, x.event = .unresolved receiver c site ∧ p.stmt? site = some (.invoke call) ∧
    w = x.facts.warning p site call receiver

theorem mem_react {x : Moment σ} : w ∈ (s.react p x.facts x.event).state.given ↔ w ∈ s.given ∨ Arises p x w := by
  obtain ⟨e, f, h⟩ := x
  cases e with
  | unresolved receiver c site =>
    cases calls : p.invoke? site with
    | none =>
      refine ⟨fun known => Or.inl (by simpa [react, calls] using known), ?_⟩
      rintro (old | ⟨_, _, _, _, ⟨⟩, stmt, _⟩)
      · simpa [react, calls] using old
      · cases calls.symm.trans (Program.invoke?_of_stmt? stmt)
    | some call =>
      simp only [react, calls, mem_add]
      constructor
      · rintro (old | rfl)
        · exact Or.inl old
        · exact Or.inr ⟨receiver, c, site, call, rfl, Program.stmt?_of_invoke? calls, rfl⟩
      · rintro (old | ⟨_, _, _, _, ⟨⟩, stmt, rfl⟩)
        · exact Or.inl old
        · cases calls.symm.trans (Program.invoke?_of_stmt? stmt)
          exact Or.inr rfl
  | _ => simp [react, Arises]

theorem react_nodup {f : Facts} {e : Event} (distinct : s.given.Nodup) :
    (s.react p f e).state.given.Nodup := by
  cases e with
  | unresolved receiver c site =>
    simp only [react]
    split
    · exact distinct
    · exact add_nodup distinct
  | _ => exact distinct

theorem mem_replay : w ∈ (replay (fun e f s => react p s f e) {} record).given ↔ ∃ x ∈ record, Arises p x w := by
  induction record using List.reverseRecOn with
  | nil => simp [replay]
  | append_singleton record x ih => rw [replay_snoc, mem_react, ih]; simp [or_and_right, exists_or]

theorem replay_nodup : (replay (fun e f s => react p s f e) {} record).given.Nodup := by
  induction record using List.reverseRecOn with
  | nil => exact List.nodup_nil
  | append_singleton record x ih =>
    rw [replay_snoc]
    exact react_nodup ih

theorem mem_sorted : w ∈ s.sorted ↔ w ∈ s.given := List.mem_mergeSort

theorem sorted_nodup (distinct : s.given.Nodup) : s.sorted.Nodup :=
  (List.mergeSort_perm _ _).nodup_iff.mpr distinct

end Warnings

theorem Chronicle.arises_iff {p : Program} {law : Law} {rules : HeapRules} {record : List (Moment σ)} {t : Facts}
    (chronicle : Chronicle p law rules record t) (connected : t.Connected p) (declared : p.Scoped) {w : Warning} :
    (∃ x ∈ record, Warnings.Arises p x w) ↔ ∃ c site call receiver,
      t.Performs p c site call receiver ∧ t.target? p call receiver = none ∧
        w = t.warning p site call receiver := by
  -- whatever a moment says of an object is still so at the end
  have same : ∀ {x receiver c site call}, x ∈ record → x.event = .unresolved receiver c site →
      p.stmt? site = some (.invoke call) →
        x.facts.warning p site call receiver = t.warning p site call receiver :=
    fun listed event stmt => ((chronicle.accounts.kept.2 _ listed).toExtends.warning
      ((chronicle.unresolved listed event).missing stmt)).symm
  constructor
  · rintro ⟨x, listed, receiver, c, site, call, event, stmt, rfl⟩
    have unresolved := (chronicle.accounts.kept.2 x listed).unresolved (chronicle.unresolved listed event)
    obtain ⟨performs, none⟩ := unresolved.performs connected declared stmt
    exact ⟨c, site, call, receiver, performs, none, same listed event stmt⟩
  · rintro ⟨c, site, call, receiver, performs, none, rfl⟩
    obtain ⟨x, listed, event⟩ := chronicle.tells (performs.unresolved none)
    exact ⟨x, listed, receiver, c, site, call, event, performs.stmt,
      (same listed event performs.stmt).symm⟩

theorem Handler.id_replay (p : Program) (h : Handler) (record : List (Moment σ)) :
    (replay (Handler.react p) h record).id = h.id := by
  induction record using List.reverseRecOn with
  | nil => rfl
  | append_singleton record x ih =>
    rw [replay_snoc, ← ih]
    cases replay (Handler.react p) h record <;> rfl

theorem Result.warnings_eq {r : Result} {others : Chain} {s : Warnings}
    (chain : r.chain = others ++ [.warnings s]) (apart : ∀ h ∈ others, h.id ≠ "result-processor") :
    r.warnings = s.sorted := by
  unfold Result.warnings
  rw [chain, List.flatMap_append, List.flatMap_eq_nil_iff.mpr]
  · simp
  · intro h member
    cases h with
    | warnings t => exact absurd rfl (apart _ member)
    | _ => rfl

namespace Chain

variable {p : Program} {sel : Selector} {rules : HeapRules} {ts : List TaintTransfer}

theorem prompt (declared : p.Scoped) : (freely p sel rules ts declared).Prompt where
  sleeps := fun n f _ behaves => phaseEnd_silent (fun h member => (behaves h member).plain) f n
  pure := fun _ => not_false
  strict := fun _ _ => not_false
  filters := by
    intro e f chain sane same named behaves r keep asked
    subst same
    exact ((react_granted behaves sane declared named).2 _ asked).prompt r keep rfl

end Chain

namespace Registry

variable {p : Program} {o : Options} {files : FileTree} {chain : Chain} {sel : Selector}

theorem solved_chronicle (made : builtin.chain p o files = .ok chain) (declared : p.Scoped) {fuel : Nat}
    {t : State Chain}
    (solved : Solver.solve ⟨p, sel, Chain.handlers p⟩ fuel (Heap.ofProgram p o.mergeStrings) chain = some t) :
    ∃ record : List (Moment Chain), t.handler = chain.map (fun h => replay (Handler.react p) h record) ∧
      Chronicle p (Law.free chain.transfers) (HeapRules.ofProgram p o.mergeStrings) record t.toFacts := by
  have behaves := chain_behaves sel made
  have opens := Chain.opens declared behaves
  have prompt : (Chain.freely p sel (Heap.ofProgram p o.mergeStrings).rules chain.transfers declared).Prompt :=
    Chain.prompt declared
  rw [← Solver.plain_solve] at solved
  obtain ⟨w, watched, rfl⟩ := Option.map_eq_some_iff.mp solved
  have result := Solver.solve_some watched
  have halts := result.halts (Regime.watched_opens _ prompt.sleeps opens behaves (Chain.blank_sane _ _))
  exact ⟨w.record, halts.toLawful.good.present.trans (Chain.replay_eq p chain w.record),
    result.chronicle prompt opens behaves (Chain.blank_sane _ _)⟩

theorem warnings_eq (made : builtin.chain p o files = .ok chain) {record : List (Moment Chain)} {r : Result}
    (handlers : r.chain = chain.map fun h => replay (Handler.react p) h record) :
    r.warnings = (replay (fun e f s => Warnings.react p s f e) {} record).sorted := by
  obtain ⟨config, tainting, extras, rfl, given, added⟩ := chain_eq made
  have commutes : ∀ e f s, Handler.react p e f (.warnings s) = (Warnings.react p s f e).map .warnings :=
    fun _ _ _ => rfl
  have last : replay (Handler.react p) (.warnings {}) record =
      .warnings (replay (fun e f s => Warnings.react p s f e) {} record) := replay_wrap commutes _ _
  rw [List.map_append, List.map_singleton, last] at handlers
  refine Result.warnings_eq handlers fun h member => ?_
  obtain ⟨g, listed, rfl⟩ := List.mem_map.mp member
  rw [Handler.id_replay]
  simp only [List.mem_append] at listed
  -- only the last handler of the chain collects warnings
  rcases listed with ((first | reflective) | taints) | extra
  · simp only [List.mem_cons, List.not_mem_nil, or_false] at first
    rcases first with rfl | rfl | rfl | rfl | rfl | rfl <;> simp [Handler.id]
  · split at reflective
    · cases List.mem_singleton.mp reflective
      simp [Handler.id]
    · cases reflective
  · obtain ⟨_, rfl⟩ := given g taints
    simp [Handler.id]
  · rcases builtin_makes_all added g extra with rfl | rfl <;> simp [Handler.id]

end Registry

/-- No call is dropped silently. When a run returns, every object that is held is known, and every call
that a reachable method makes has a target and is recorded with it, or has none and is warned about; every
warning is about such a call, and no warning is given twice. And every run returns. -/
theorem Analysis.calls_recorded_or_warned {a : Analysis} {o : Options}
    (registered : a.registry = Registry.builtin) (declared : a.program.Scoped) (sel : Selector) :
    (∀ r, a.solve o sel = .ok r →
      (∀ q x, r.facts.elements.Holds q x → ∃ obj, r.facts.obj? x = some obj) ∧
      (∀ c site call receiver, r.facts.Performs a.program c site call receiver →
        (∃ m, r.facts.target? a.program call receiver = some m ∧
          r.facts.Records (.ofInvoke call.kind) c site m) ∨
        r.facts.target? a.program call receiver = none ∧
          r.facts.warning a.program site call receiver ∈ r.warnings) ∧
      (∀ w ∈ r.warnings, ∃ c site call receiver, r.facts.Performs a.program c site call receiver ∧
        r.facts.target? a.program call receiver = none ∧
          w = r.facts.warning a.program site call receiver) ∧
      r.warnings.Nodup) ∧
      ∀ chain, a.registry.chain a.program o a.files = .ok chain → ∃ n, ∀ limit, n ≤ limit →
        ∃ r, { a with stepLimit := limit }.solve o sel = .ok r := by
  refine solve_spec registered sel fun chain t made run => ?_
  have stands := Registry.solved_stands made declared run
  have connected := Registry.solved_connected made declared run
  obtain ⟨record, handlers, chronicle⟩ := Registry.solved_chronicle made declared run
  have warnings : Result.warnings ⟨a.program, sel.name, t.toFacts, t.stats, t.handler⟩ = _ :=
    Registry.warnings_eq made handlers
  rw [warnings]
  simp only [Warnings.mem_sorted, Warnings.mem_replay, chronicle.arises_iff connected declared]
  refine ⟨fun q x held => ?_, fun c site call receiver performs => ?_, fun w about => about, ?_⟩
  · obtain ⟨d, known⟩ := stands.handles.held q x held
    exact ⟨_, Facts.obj?_of_describe? known⟩
  · cases target : t.target? a.program call receiver with
    | some m => exact Or.inl ⟨m, rfl, stands.records (fun _ => not_false) performs target⟩
    | none => exact Or.inr ⟨rfl, c, site, call, receiver, performs, target, rfl⟩
  · exact Warnings.sorted_nodup Warnings.replay_nodup

/-- A box is filled, and then sealed, which boxes cannot be. -/
def parcels : Program where
  classes := #[⟨"Object", none, [], false, false, true, [], []⟩,
    ⟨"Box", some 0, [], false, false, true, [0, 1], [0]⟩]
  fields := #[⟨"content", 1, .cls 0, false⟩]
  methods := #[
    .put,
    .routine 1 "main" "void main()" none [2]
      [.new 2 (.cls 1), .invoke ⟨.virtual, ⟨1, "void put(Object)"⟩, some 2, [2], none⟩,
        .invoke ⟨.virtual, ⟨1, "void seal()"⟩, some 2, [], none⟩]]
  vars := #[⟨"this", .cls 1, 0⟩, ⟨"p0", .cls 0, 0⟩, ⟨"box", .cls 1, 1⟩]
  main := some 1

def parcelsAnalysis : Except AnalysisError Result :=
  Analysis.solve { program := parcels, files := { root := "" }, stepLimit := 200 } { implicitEntries := false }
    (.limited (.object 1))

theorem Analysis.parcels_recorded_or_warned : ∃ r, parcelsAnalysis = .ok r ∧
    r.facts.calls.edges.length = 1 ∧ ∃ w, r.warnings = [w] ∧ w.site = ⟨1, 2⟩ ∧
      ∃ c call receiver, r.facts.Performs parcels c ⟨1, 2⟩ call receiver ∧
        r.facts.target? parcels call receiver = none ∧
          w = r.facts.warning parcels ⟨1, 2⟩ call receiver := by
  obtain ⟨r, solved, edges, sites⟩ : ∃ r, parcelsAnalysis = .ok r ∧ r.facts.calls.edges.length = 1 ∧
      r.warnings.map Warning.site = [⟨1, 2⟩] := ok_of_decide (by decide +kernel)
  obtain ⟨w, warned, site⟩ := List.map_eq_singleton_iff.mp sites
  obtain ⟨_, _, about, _⟩ := (calls_recorded_or_warned rfl (by decide) _).1 r solved
  obtain ⟨c, place, call, receiver, performs, none, rfl⟩ := about w (by simp [warned])
  cases site
  exact ⟨r, solved, edges, _, warned, rfl, c, call, receiver, performs, none, rfl⟩

end PointsTo
