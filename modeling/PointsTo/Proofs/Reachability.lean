import Mathlib.Data.List.Perm.Subperm
import Mathlib.Logic.Relation
import PointsTo.Proofs.Grounding
import PointsTo.Proofs.Meddling
import PointsTo.Proofs.Refinement

/-!
Reachability at the end of a run. Calls go from reachable methods to reachable methods, and no method is
reachable but by calls from an entry method. Forgetting contexts keeps this, and the search for a chain
of calls is complete.
-/
namespace PointsTo

section Closure

variable {α : Type} [DecidableEq α] {next : α → List α} {into items seen : List α} {a : α} {n : Nat}

theorem mem_appendNew : a ∈ appendNew into items ↔ a ∈ into ∨ a ∈ items := by
  induction items generalizing into with
  | nil => simp [appendNew]
  | cons b rest ih =>
    rw [appendNew, ih]
    by_cases known : b ∈ into
    · rw [if_pos known, List.mem_cons]
      constructor
      · exact fun member => member.imp_right Or.inr
      · rintro (old | rfl | later)
        · exact Or.inl old
        · exact Or.inl known
        · exact Or.inr later
    · simp [known, or_assoc]

theorem appendNew_nodup (distinct : into.Nodup) : (appendNew into items).Nodup := by
  induction items generalizing into with
  | nil => exact distinct
  | cons b rest ih =>
    rw [appendNew]
    by_cases known : b ∈ into
    · rw [if_pos known]
      exact ih distinct
    · rw [if_neg known]
      exact ih (List.nodup_append.mpr ⟨distinct, List.nodup_singleton b,
        fun a old c new same => known (List.mem_singleton.mp new ▸ same ▸ old)⟩)

theorem appendNew_of_subset (known : ∀ b ∈ items, b ∈ into) : appendNew into items = into := by
  induction items with
  | nil => rfl
  | cons b rest ih =>
    rw [appendNew, if_pos (known b List.mem_cons_self)]
    exact ih fun c later => known c (List.mem_cons_of_mem _ later)

theorem closeUnder_of_closed (closed : ∀ b ∈ seen.flatMap next, b ∈ seen) (n : Nat) :
    closeUnder next n seen = seen := by
  induction n with
  | zero => rfl
  | succ n ih => rw [closeUnder, appendNew_of_subset closed, ih]

theorem mem_closeUnder_of_mem (member : a ∈ seen) : a ∈ closeUnder next n seen := by
  induction n generalizing seen with
  | zero => exact member
  | succ n ih => exact ih (mem_appendNew.mpr (Or.inl member))

/-- Every round that is not the last one adds something, so as many rounds as there are items suffice. -/
theorem closeUnder_closed {all : List α} (bounded : ∀ a ∈ all, ∀ b ∈ next a, b ∈ all) (distinct : seen.Nodup)
    (within : ∀ a ∈ seen, a ∈ all) (enough : all.length ≤ n + seen.length) :
    ∀ a ∈ closeUnder next n seen, ∀ b ∈ next a, b ∈ closeUnder next n seen := by
  induction n generalizing seen with
  | zero =>
    -- no round is left, so `seen` has grown to all there is
    have whole : List.Perm seen all :=
      (List.subperm_of_subset distinct within).perm_of_length_le (by omega)
    exact fun a member b step => whole.mem_iff.mpr (bounded a (within a member) b step)
  | succ n ih =>
    by_cases closed : ∀ b ∈ seen.flatMap next, b ∈ seen
    · rw [closeUnder_of_closed closed]
      exact fun a member b step => closed b (List.mem_flatMap.mpr ⟨a, member, step⟩)
    · -- the round finds something that was not seen, and pays for itself
      obtain ⟨b, new⟩ := Classical.not_forall.mp closed
      obtain ⟨reached, fresh⟩ := Classical.not_imp.mp new
      have inside : ∀ a ∈ appendNew seen (seen.flatMap next), a ∈ all := by
        intro a member
        rcases mem_appendNew.mp member with old | step
        · exact within a old
        · obtain ⟨c, old, step⟩ := List.mem_flatMap.mp step
          exact bounded c (within c old) a step
      have longer : (b :: seen).length ≤ (appendNew seen (seen.flatMap next)).length := by
        refine (List.subperm_of_subset (List.nodup_cons.mpr ⟨fresh, distinct⟩) ?_).length_le
        refine List.cons_subset.mpr ⟨mem_appendNew.mpr (Or.inr reached), fun a old => ?_⟩
        exact mem_appendNew.mpr (Or.inl old)
      rw [List.length_cons] at longer
      exact ih (appendNew_nodup distinct) inside (by omega)

end Closure

namespace MethodGraph

variable {f : Facts} {g : MethodGraph} {m n : MethodId}

def Calls (g : MethodGraph) (m n : MethodId) : Prop := ∃ e ∈ g.edges, e.site.method = m ∧ e.callee = n

theorem mem_calleesOf : n ∈ g.calleesOf m ↔ g.Calls m n := by
  simp only [calleesOf, mem_ascending, List.mem_filterMap, Option.ite_none_right_eq_some,
    Option.some.injEq, Calls]

/-- The search finds whatever calls lead to, if the ends of all calls are methods of the graph. -/
theorem leads_of_calls (bounded : ∀ a b, g.Calls a b → b ∈ g.methods) (known : m ∈ g.methods)
    (path : Relation.ReflTransGen g.Calls m n) : g.leads m n = true := by
  have within : ∀ a ∈ g.methods, ∀ b ∈ g.calleesOf a, b ∈ g.methods :=
    fun a _ b step => bounded a b (mem_calleesOf.mp step)
  have closed := closeUnder_closed within (List.nodup_singleton m)
    (List.forall_mem_singleton.mpr known) (Nat.le_add_right g.methods.length [m].length)
  have found : n ∈ closeUnder g.calleesOf g.methods.length [m] := by
    induction path with
    | refl => exact mem_closeUnder_of_mem List.mem_cons_self
    | tail _ step ih => exact closed _ ih _ (mem_calleesOf.mpr step)
  simp only [leads, contains, Bool.and_eq_true, List.contains_iff_mem]
  exact ⟨known, found⟩

theorem mem_edges {e : MethodEdge} : e ∈ (ofFacts f).edges ↔ ∃ d ∈ f.calls.edges, d.kind = e.kind ∧
    (∃ c, f.elements.site? d.site = some (c, e.site)) ∧
      ∃ c, f.elements.method? d.callee = some (c, e.callee) := by
  simp only [ofFacts, mem_sortedBy, List.mem_eraseDups, List.mem_filterMap]
  refine exists_congr fun d => and_congr_right fun _ => ?_
  obtain ⟨kind, site, callee⟩ := e
  cases place : f.elements.site? d.site with
  | none => simp
  | some x =>
    cases known : f.elements.method? d.callee with
    | none => simp
    | some y => simp [Prod.ext_iff]

theorem mem_entries : m ∈ (ofFacts f).entries ↔
    ∃ id ∈ f.calls.entries, ∃ c, f.elements.method? id = some (c, m) := by
  simp [ofFacts, List.mem_eraseDups, List.mem_filterMap]

theorem mem_methods : m ∈ (ofFacts f).methods ↔
    (∃ c, f.Reaches c m) ∨ ∃ e ∈ (ofFacts f).edges, e.site.method = m ∨ e.callee = m := by
  have marked : m ∈ f.calls.reachable.filterMap (fun id => (f.elements.method? id).map (·.2)) ↔
      ∃ c, f.Reaches c m := by
    simp only [List.mem_filterMap, Option.map_eq_some_iff, Prod.exists, Facts.Reaches]
    constructor
    · rintro ⟨id, reachable, c, _, known, rfl⟩
      exact ⟨c, id, reachable, known⟩
    · rintro ⟨c, id, reachable, known⟩
      exact ⟨id, reachable, c, m, known, rfl⟩
  rw [← marked]
  simp only [ofFacts, List.mem_eraseDups, List.mem_append, List.mem_flatMap, mem_sortedBy, List.mem_cons,
    List.not_mem_nil, or_false, eq_comm]

end MethodGraph

structure Facts.Connected (p : Program) (f : Facts) : Prop where
  /-- A call is made in a method that is reachable in the context of the call, -/
  callers : ∀ e ∈ f.calls.edges, ∃ c site, f.elements.site? e.site = some (c, site) ∧
    f.Reaches c site.method
  /-- and the method that is called is reachable. -/
  callees : ∀ e ∈ f.calls.edges, e.callee ∈ f.calls.reachable ∧ ∃ x, f.elements.method? e.callee = some x
  origins : ∀ id ∈ f.calls.reachable, id ∈ f.calls.entries ∨ ∃ e ∈ f.calls.edges, e.callee = id
  vars : ∀ q c v, f.elements.pointer? q = some (.var c v) →
    ∃ decl, p.vars[v]? = some decl ∧ f.Reaches c decl.method
  flows : ∀ id e, f.flow.edge? id = some e →
    (∃ a, f.elements.pointer? e.source = some a) ∧ ∃ b, f.elements.pointer? e.target = some b
  objects : ∀ id o, f.heap.get? id = some o → ∀ site, o.site? = some site → ∃ c, f.Reaches c site.method

namespace State

variable {σ : Type u} {cx : Setup σ} {R : Regime cx} {s : State σ} {c : ContextId} {m : MethodId}

/-- A settled state in which nothing is left to do and all methods are rooted. -/
structure Stands (R : Regime cx) (s : State σ) : Prop extends s.Halts R, s.Settles R, s.Rooted where
  strict : ∀ c m, ¬ R.law.excused c m

theorem Lawful.found_of_reaches (lawful : s.Lawful R) (reaches : s.Reaches c m) :
    ∃ frame, s.FrameOf c frame ∧ s.Found (.reached frame m) := by
  obtain ⟨id, reachable, known⟩ := reaches
  obtain ⟨frame, named, _⟩ := lawful.obeys (.method id c m) known
  exact ⟨frame, named, id, ⟨c, known, named⟩, reachable⟩

theorem Stands.placed (stands : s.Stands R) (placed : s.Placed R.law c m) : s.Reaches c m :=
  stands.toSettles.reaches stands.calls (Facts.interned_of_placed stands.strict placed)

theorem Stands.recorded (stands : s.Stands R) {e : CallEdge}
    (made : e ∈ s.calls.edges ∨ e ∈ s.worklist.calls) : e ∈ s.calls.edges := by
  rcases made with recorded | waiting
  · exact recorded
  · rw [stands.calls] at waiting
    cases waiting

theorem Stands.connected (stands : s.Stands R)
    (used : ∀ q c v, s.elements.pointer? q = some (.var c v) → ∃ m, cx.program.Mentions m v)
    (allocated : ∀ id o, s.heap.get? id = some o → ∀ site, o.site? = some site → site.method ∈ s.seen) :
    s.Connected cx.program where
  callers := by
    intro e recorded
    obtain ⟨_, site, _, _, ⟨⟨context, place, _⟩, _⟩, _⟩ := stands.obeys (.call e) (Or.inl recorded)
    exact ⟨context, site, place, stands.placed (stands.obeys (.site e.site context site) place).2.placed⟩
  callees := by
    intro e recorded
    obtain ⟨_, _, _, m, ⟨_, context, known, _⟩, _⟩ := stands.obeys (.call e) (Or.inl recorded)
    obtain ⟨id, reachable, same⟩ := stands.toSettles.reaches stands.calls ⟨e.callee, known⟩
    exact ⟨Table.get?_inj same known ▸ reachable, _, known⟩
  origins := by
    intro id reachable
    -- a known method has an entry or a call as its ground, and no call waits to be recorded
    obtain ⟨c, m, known⟩ := stands.obeys (.reachable id) reachable
    cases stands.grounded id _ known with
    | entry starts => exact Or.inl starts
    | called made => exact Or.inr ⟨_, stands.recorded made, rfl⟩
  vars := by
    intro q c v known
    obtain ⟨m, mentions⟩ := used q c v known
    have reaches := stands.placed ((stands.obeys (.pointer q (.var c v)) known).2 c v rfl m mentions)
    obtain ⟨body, code, member⟩ := mentions
    obtain ⟨decl, declared, same⟩ := Option.map_eq_some_iff.mp (R.declared m body code v member)
    exact ⟨decl, declared, same ▸ reaches⟩
  flows := fun id e edge => stands.handles.edges id e edge
  objects := fun id o known site made => stands.seen _ (allocated id o known site made)

theorem Stands.path (stands : s.Stands R) {id : CsMethodId} (grounded : s.Grounded id)
    (known : s.elements.method? id = some (c, m)) :
    ∃ e ∈ s.calls.entries, ∃ d n, s.elements.method? e = some (d, n) ∧
      Relation.ReflTransGen (MethodGraph.ofFacts s.toFacts).Calls n m := by
  induction grounded generalizing c m with
  | entry starts => exact ⟨_, starts, c, m, known, .refl⟩
  | @called call _ _ site made place caller _ ih =>
    obtain ⟨e, starts, d, n, entry, path⟩ := ih caller
    have edge : ⟨call.kind, site, m⟩ ∈ (MethodGraph.ofFacts s.toFacts).edges :=
      MethodGraph.mem_edges.mpr ⟨call, stands.recorded made, rfl, ⟨_, place⟩, _, known⟩
    exact ⟨e, starts, d, n, entry, path.tail ⟨_, edge, rfl, rfl⟩⟩

end State

namespace Facts.Connected

variable {p : Program} {f : Facts} {m : MethodId}

theorem mem_methods (connected : f.Connected p) :
    m ∈ (MethodGraph.ofFacts f).methods ↔ ∃ c, f.Reaches c m := by
  refine MethodGraph.mem_methods.trans ⟨fun member => ?_, Or.inl⟩
  rcases member with reaches | ⟨e, edge, ends⟩
  · exact reaches
  · obtain ⟨d, recorded, _, ⟨c, place⟩, b, known⟩ := MethodGraph.mem_edges.mp edge
    rcases ends with rfl | rfl
    · obtain ⟨c', site, place', reaches⟩ := connected.callers d recorded
      cases place.symm.trans place'
      exact ⟨c, reaches⟩
    · exact ⟨b, d.callee, (connected.callees d recorded).1, known⟩

end Facts.Connected

namespace Registry

variable {p : Program} {o : Options} {files : FileTree} {chain : Chain} {sel : Selector} {fuel : Nat}
  {t : State Chain}

variable (made : builtin.chain p o files = .ok chain) (declared : p.Scoped)
  (solved : Solver.solve ⟨p, sel, Chain.handlers p⟩ fuel (Heap.ofProgram p o.mergeStrings) chain = some t)

include made declared solved

theorem solved_stands :
    t.Stands (Chain.freely p sel (HeapRules.ofProgram p o.mergeStrings) chain.transfers declared) := by
  have behaves := chain_behaves sel made
  have opens := Chain.opens declared behaves
  have result := Solver.solve_some solved
  have settles := result.settles_of_opens opens
  exact ⟨result.halts opens, settles.paid, settles.awaited, result.rooted opens fun _ _ => not_false,
    fun _ _ => not_false⟩

theorem solved_connected : t.Connected p := by
  obtain ⟨config, makes⟩ := chain_makes made
  obtain ⟨s, confined, trims, seen⟩ := Solver.solve_confined
    (Chain.confinement (p.worldWith sel o.mergeStrings config)) rfl rfl
    (fun h member => (makes h member).stays) solved
  -- the last phase end only takes objects out of points-to sets: pointers and heap are those of `s`
  refine (solved_stands made declared solved).connected (fun q c v known => ?_) fun id x known => ?_
  · rw [Elements.pointer?, trims.pointers] at known
    exact Program.mentions_of_mem_allVars (World.var_mem _ |>.mp (confined.pointers q _ known)).2
  · rw [trims.heap] at known
    rw [seen]
    exact confined.allocated id x known

end Registry

/-- Reachability is grounded. When a run returns, calls connect reachable methods, only entry methods and
callees are reachable, and only reachable methods have a part in the facts; the graph of methods has the
reachable methods and the recorded calls without their contexts, and the search leads to each of its
methods from an entry method. And every run returns. -/
theorem Analysis.reachability_grounded {a : Analysis} {o : Options}
    (registered : a.registry = Registry.builtin) (declared : a.program.Scoped) (sel : Selector) :
    (∀ r, a.solve o sel = .ok r → r.facts.Connected a.program ∧
      (∀ m, m ∈ r.methodGraph.methods ↔ ∃ c, r.facts.Reaches c m) ∧
      (∀ e, e ∈ r.methodGraph.edges ↔ ∃ d ∈ r.facts.calls.edges, d.kind = e.kind ∧
        (∃ c, r.facts.elements.site? d.site = some (c, e.site)) ∧
          ∃ c, r.facts.elements.method? d.callee = some (c, e.callee)) ∧
      ∀ m ∈ r.methodGraph.methods, ∃ e ∈ r.methodGraph.entries, r.methodGraph.leads e m = true) ∧
      ∀ chain, a.registry.chain a.program o a.files = .ok chain → ∃ n, ∀ limit, n ≤ limit →
        ∃ r, { a with stepLimit := limit }.solve o sel = .ok r := by
  refine solve_spec registered sel fun chain t made run => ?_
  have stands := Registry.solved_stands made declared run
  have connected := Registry.solved_connected made declared run
  refine ⟨connected, fun m => connected.mem_methods, fun e => MethodGraph.mem_edges, fun m member => ?_⟩
  obtain ⟨c, id, _, known⟩ := connected.mem_methods.mp member
  obtain ⟨entry, starts, d, n, begins, path⟩ := stands.path (stands.grounded id _ known) known
  refine ⟨n, MethodGraph.mem_entries.mpr ⟨entry, starts, d, begins⟩,
    MethodGraph.leads_of_calls (fun a b calls => ?_) ?_ path⟩
  · obtain ⟨e, edge, _, rfl⟩ := calls
    exact MethodGraph.mem_methods.mpr (Or.inr ⟨e, edge, Or.inr rfl⟩)
  · exact connected.mem_methods.mpr ⟨d, stands.toSettles.reaches stands.calls ⟨entry, begins⟩⟩

/-- A box is filled; nobody calls the method that would make another. -/
def attic : Program where
  classes := #[⟨"Object", none, [], false, false, true, [], []⟩,
    ⟨"Box", some 0, [], false, false, true, [0, 1, 2], [0]⟩]
  fields := #[⟨"content", 1, .cls 0, false⟩]
  methods := #[
    .put,
    .routine 1 "main" "void main()" none [2]
      [.new 2 (.cls 1), .invoke ⟨.virtual, ⟨1, "void put(Object)"⟩, some 2, [2], none⟩],
    .routine 1 "forget" "void forget()" none [3] [.new 3 (.cls 1)]]
  vars := #[⟨"this", .cls 1, 0⟩, ⟨"p0", .cls 0, 0⟩, ⟨"box", .cls 1, 1⟩, ⟨"lost", .cls 1, 2⟩]
  main := some 1

def atticAnalysis : Except AnalysisError Result :=
  Analysis.solve { program := attic, files := { root := "" }, stepLimit := 200 } { implicitEntries := false }
    (.limited (.object 1))

theorem Analysis.attic_grounded : ∃ r, atticAnalysis = .ok r ∧ r.methodGraph.methods = [1, 0] ∧
    r.methodGraph.leads 1 0 = true ∧ r.facts.elements.varsOf 3 = [] ∧ r.facts.heap.size = 1 ∧
    r.facts.Connected attic := by
  obtain ⟨r, solved, methods, leads, vars, size⟩ : ∃ r, atticAnalysis = .ok r ∧
      r.methodGraph.methods = [1, 0] ∧ r.methodGraph.leads 1 0 = true ∧ r.facts.elements.varsOf 3 = [] ∧
      r.facts.heap.size = 1 := ok_of_decide (by decide +kernel)
  obtain ⟨connected, _⟩ := (reachability_grounded rfl (by decide) _).1 r solved
  exact ⟨r, solved, methods, leads, vars, size, connected⟩

end PointsTo
