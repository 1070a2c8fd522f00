import PointsTo.Proofs.Abstraction
import PointsTo.Proofs.Catching
import PointsTo.Proofs.Ending
import PointsTo.Proofs.Initialization
import PointsTo.Proofs.Reading

/-!
Contexts only refine. If contexts can be mapped from one selector to another, everything that a run
finds with the one is found, under the map, with the other. Forgetting all contexts is such a map.
-/
namespace PointsTo

namespace Registry

variable {σ : Type u} {p : Program} {o : Options} {config : TaintConfig} {files : FileTree} {chain : Chain}
  {sel : Selector} {holds : Fact → Prop} {rules : HeapRules} {keep : Obj → Prop} {record : List (Moment σ)}
  {t : Facts} {h : Handler} {fuel : Nat} {s : State Chain}

theorem Makes.satisfied (made : Makes p o config h) (plain : ∀ s, h ≠ .taint s)
    (story : Story p sel (Law.only p holds) rules keep (Handler.react p) h record t) :
    h.Satisfied p sel rules (t.Upholds keep) := by
  cases made with
  | timer => trivial
  | warnings => trivial
  | entries => exact Entries.satisfied (story.restrict Handler.entries fun _ _ _ => rfl)
  | initializers => exact Initialized.satisfied (story.restrict Handler.initializers fun _ _ _ => rfl)
  | threads => exact Threads.satisfied (story.restrict Handler.threads fun _ _ _ => rfl)
  | natives => exact Natives.satisfied (story.restrict Handler.natives fun _ _ _ => rfl)
  | exceptions => exact Exceptions.satisfied (story.restrict Handler.exceptions fun _ _ _ => rfl)
  | reflection => exact Reflection.satisfied (story.restrict Handler.reflection fun _ _ _ => rfl) rfl rfl
  | taint _ => exact absurd rfl (plain _)
  | nulls =>
    refine LiteralAssigns.satisfied (story.restrict Handler.nulls fun _ _ _ => rfl) ?_
    rintro _ _ _ ⟨⟩
    rfl
  | numbers =>
    exact LiteralAssigns.satisfied (story.restrict Handler.numbers fun _ _ _ => rfl) fun _ _ _ =>
      numberObj?_clean

theorem Makes.plain (made : Makes p o config h) (untainted : o.taintConfig = none) : ∀ s, h ≠ .taint s := by
  rintro s rfl
  cases made with
  | taint tainted => simp [untainted] at tainted

section

variable (made : builtin.chain p o files = .ok chain) (untainted : o.taintConfig = none) (declared : p.Scoped)
  (solved : Solver.solve ⟨p, sel, Chain.handlers p⟩ fuel (Heap.ofProgram p o.mergeStrings) chain = some s)

include made untainted declared solved

theorem solved_story :
    ∃ record : List (Moment Chain), s.handler = chain.map (fun h => replay (Handler.react p) h record) ∧
      ∀ h ∈ chain, Story p sel (Law.only p fun _ => True) (HeapRules.ofProgram p o.mergeStrings)
        (fun _ => True) (Handler.react p) h record s.toFacts := by
  have good : chain.Remembers p sel (Heap.ofProgram p o.mergeStrings).rules (fun _ => True)
      { heap := Heap.ofProgram p o.mergeStrings } := chain_remembers untainted _ made
  have starts := Chain.starts sel declared good
  have sleeps : (Chain.regime p sel (Heap.ofProgram p o.mergeStrings).rules declared _).Sleeps :=
    Chain.sleeps declared fun _ _ _ _ => trivial
  rw [← Solver.plain_solve] at solved
  obtain ⟨w, watched, rfl⟩ := Option.map_eq_some_iff.mp solved
  have result := Solver.solve_some watched
  have halts := result.halts (Regime.watched_opens _ sleeps starts.toOpens good (Chain.blank_sane _ _))
  refine ⟨w.record, halts.toLawful.good.present.trans (Chain.replay_eq p chain w.record), fun h member => ?_⟩
  exact (result.story (fun _ => False.elim) sleeps starts good (Chain.blank_sane _ _)).member member

theorem solved_satisfied :
    s.Spelled ∧ Closed (Rule p sel (HeapRules.ofProgram p o.mergeStrings)) s.Found ∧
      ∀ h ∈ chain, h.Satisfied p sel (HeapRules.ofProgram p o.mergeStrings) s.Found := by
  obtain ⟨spelled, closed⟩ := solved_closed made untainted declared solved
  refine ⟨spelled, closed, fun h member => ?_⟩
  obtain ⟨record, _, stories⟩ := solved_story made untainted declared solved
  obtain ⟨config, makes⟩ := chain_makes made
  rw [← s.upholds_all]
  exact (makes h member).satisfied ((makes h member).plain untainted) (stories h member)

end

/-- What a run finds, the edges it makes, and what its handlers remember keeps to every closed set that
satisfies them. -/
theorem solved_lawful (made : builtin.chain p o files = .ok chain) (declared : p.Scoped)
    (closed : Closed (Rule p sel (HeapRules.ofProgram p o.mergeStrings)) holds)
    (satisfied : ∀ h ∈ chain, h.Satisfied p sel (HeapRules.ofProgram p o.mergeStrings) holds)
    (solved : Solver.solve ⟨p, sel, Chain.handlers p⟩ fuel (Heap.ofProgram p o.mergeStrings) chain = some s) :
    (∀ x, s.Found x → holds x) ∧
      (∀ id e, s.flow.edge? id = some e → ∃ x y, s.CellOf e.source x ∧ s.CellOf e.target y ∧
        (Law.only p holds).Flows p e.label x y) ∧
      s.handler.Remembers p sel (HeapRules.ofProgram p o.mergeStrings) holds s.toFacts := by
  obtain ⟨config, makes⟩ := chain_makes made
  have closed' : Closed (Rule p sel (Heap.ofProgram p o.mergeStrings).rules) holds := closed
  have remembers : chain.Remembers p sel (Heap.ofProgram p o.mergeStrings).rules holds
      { heap := Heap.ofProgram p o.mergeStrings } :=
    fun h member => (makes h member).remembers _ (satisfied h member)
  have lawful := ((Solver.solve_some solved).rests (Chain.starts_under declared closed' remembers)).toLawful
  exact ⟨fun x found => lawful.inLaw found, fun id e edge => lawful.flows_of_edge edge, lawful.good⟩

end Registry

section Contains

variable {p : Program} {o : Options} {files : FileTree} {chain : Chain} {fine coarse : Selector}
  {fuel fuel' : Nat} {s t : State Chain} {x : Fact}

/-- Whatever a run finds is found, under the map, by the run with the other selector and heap. -/
theorem Morphism.contains {merges merges' : Bool}
    (M : Morphism p (HeapRules.ofProgram p merges) (HeapRules.ofProgram p merges') fine coarse)
    (made : Registry.builtin.chain p o files = .ok chain) (untainted : o.taintConfig = none) (declared : p.Scoped)
    (solved : Solver.solve ⟨p, fine, Chain.handlers p⟩ fuel (Heap.ofProgram p merges) chain = some s)
    (solved' : Solver.solve ⟨p, coarse, Chain.handlers p⟩ fuel' (Heap.ofProgram p merges') chain = some t)
    (found : s.Found x) : t.Found (M.fact x) := by
  -- the handlers are the same whether strings are merged or not
  obtain ⟨_, closed, satisfied⟩ := Registry.solved_satisfied (o := { o with mergeStrings := merges' })
    made untainted declared solved'
  have kept := (Registry.solved_lawful (o := { o with mergeStrings := merges }) made declared
    (M.closed closed) (fun h member => M.satisfied (satisfied h member)) solved).1
  exact (kept x found).1

end Contains

/-- All frames may be forgotten: what is chosen without contexts is always the empty frame. -/
def Morphism.forgetting (p : Program) (rules : HeapRules) (sel : Selector) :
    Morphism p rules rules sel (.limited .insensitive) where
  frame _ := []
  heap _ := []
  obj o := o
  Fits _ := True
  frame_nil := rfl
  heap_nil := rfl
  ty _ := rfl
  constant? _ := rfl
  unallocated _ _ := rfl
  allocated _ _ := rfl
  constant _ := rfl
  fits_plain _ := trivial
  fits_new _ _ _ _ _ := trivial
  callee _ _ _ := rfl
  calleeOn _ _ _ _ _ := rfl
  heapFrame _ _ := rfl

namespace Analysis

variable {a : Analysis} {o : Options} {sel : Selector} {chain : Chain} {r : Result}

variable (registered : a.registry = Registry.builtin)

include registered

theorem solve_ok (solved : a.solve o sel = .ok r) :
    ∃ chain t, Registry.builtin.chain a.program o a.files = .ok chain ∧
      Solver.solve ⟨a.program, sel, Chain.handlers a.program⟩ a.stepLimit
        (Heap.ofProgram a.program o.mergeStrings) chain = some t ∧ r.facts = t.toFacts := by
  obtain ⟨chain, t, made, run, rfl⟩ := solve_eq registered solved
  exact ⟨chain, t, made, run, rfl⟩

theorem solve_of_run (made : Registry.builtin.chain a.program o a.files = .ok chain) {t : State Chain}
    (run : Solver.solve ⟨a.program, sel, Chain.handlers a.program⟩ a.stepLimit
      (Heap.ofProgram a.program o.mergeStrings) chain = some t) :
    a.solve o sel = .ok ⟨a.program, sel.name, t.toFacts, t.stats, t.handler⟩ := by
  unfold solve
  rw [registered]
  simp only [made, run, bind, Except.bind]
  rfl

/-- With enough steps every run of the handlers that the options ask for returns, always the same. -/
theorem solve_stable (made : Registry.builtin.chain a.program o a.files = .ok chain) (sel : Selector) :
    ∃ n r, ∀ limit, n ≤ limit → { a with stepLimit := limit }.solve o sel = .ok r := by
  obtain ⟨config, makes⟩ := Registry.chain_makes made
  have empty : (Heap.ofProgram a.program o.mergeStrings).objects = Table.empty := rfl
  obtain ⟨n, t, ends, _⟩ := Solver.solve_ends
    (Chain.confinement (a.program.worldWith sel o.mergeStrings config)) rfl empty
    fun h member => (makes h member).stays
  exact ⟨n, ⟨a.program, sel.name, t.toFacts, t.stats, t.handler⟩, fun limit enough =>
    solve_of_run (a := { a with stepLimit := limit }) registered made (ends limit enough)⟩

theorem solve_returns (made : Registry.builtin.chain a.program o a.files = .ok chain) (sel : Selector) :
    ∃ n, ∀ limit, n ≤ limit → ∃ r, { a with stepLimit := limit }.solve o sel = .ok r := by
  obtain ⟨n, r, ends⟩ := solve_stable registered made sel
  exact ⟨n, fun limit enough => ⟨r, ends limit enough⟩⟩

/-- What is shown of the state in which a run ends holds of its result, and with enough steps there is one. -/
theorem solve_spec {P : Result → Prop} (sel : Selector)
    (each : ∀ chain t, Registry.builtin.chain a.program o a.files = .ok chain →
      Solver.solve ⟨a.program, sel, Chain.handlers a.program⟩ a.stepLimit
        (Heap.ofProgram a.program o.mergeStrings) chain = some t →
      P ⟨a.program, sel.name, t.toFacts, t.stats, t.handler⟩) :
    (∀ r, a.solve o sel = .ok r → P r) ∧
      ∀ chain, a.registry.chain a.program o a.files = .ok chain → ∃ n, ∀ limit, n ≤ limit →
        ∃ r, { a with stepLimit := limit }.solve o sel = .ok r := by
  constructor
  · intro r solved
    obtain ⟨chain, t, made, run, rfl⟩ := solve_eq registered solved
    exact each chain t made run
  · intro chain made
    rw [registered] at made
    exact solve_returns registered made sel

theorem solve_returns_both (made : Registry.builtin.chain a.program o a.files = .ok chain) (sel sel' : Selector) :
    ∃ n, ∀ limit, n ≤ limit → ∃ r s, { a with stepLimit := limit }.solve o sel = .ok r ∧
      { a with stepLimit := limit }.solve o sel' = .ok s := by
  obtain ⟨n, r, ends⟩ := solve_stable registered made sel
  obtain ⟨n', s, ends'⟩ := solve_stable registered made sel'
  exact ⟨max n n', fun limit enough =>
    ⟨r, s, ends limit (le_of_max_le_left enough), ends' limit (le_of_max_le_right enough)⟩⟩

end Analysis

/-- Contexts only refine: under every selector, whatever a run answers is also answered by the run without
contexts; and both runs return. -/
theorem Analysis.refines_insensitive {a : Analysis} {o : Options}
    (registered : a.registry = Registry.builtin) (untainted : o.taintConfig = none)
    (declared : a.program.Scoped) (sel : Selector) :
    (∀ r s, a.solve o sel = .ok r → a.solve o (.limited .insensitive) = .ok s → r.Within s) ∧
      ∀ chain, a.registry.chain a.program o a.files = .ok chain → ∃ n, ∀ limit, n ≤ limit →
        ∃ r s, { a with stepLimit := limit }.solve o sel = .ok r ∧
          { a with stepLimit := limit }.solve o (.limited .insensitive) = .ok s := by
  constructor
  · intro r s solved solved'
    obtain ⟨chain, t, made, run, facts⟩ := solve_ok registered solved
    obtain ⟨chain', t', made', run', facts'⟩ := solve_ok registered solved'
    obtain rfl := Except.ok.inj (made.symm.trans made')
    let M := Morphism.forgetting a.program (HeapRules.ofProgram a.program o.mergeStrings) sel
    have contained : ∀ x, r.facts.Found x → s.facts.Found (M.fact x) := by
      rw [facts, facts']
      exact fun x found => M.contains made untainted declared run run' found
    refine Result.within_of_tells (facts ▸ (Registry.solved_satisfied made untainted declared run).1)
      (facts' ▸ (Registry.solved_satisfied made untainted declared run').1) ?_ ?_ ?_
    · rintro _ _ ⟨x, i, rfl, rfl, found⟩
      exact ⟨M.cell x, M.item i, by cases x <;> rfl, rfl, contained _ found⟩
    · rintro m ⟨c, found⟩
      exact ⟨[], contained _ found⟩
    · rintro e ⟨c, d, found⟩
      exact ⟨[], [], contained _ found⟩
  · intro chain made
    rw [registered] at made
    exact solve_returns_both registered made sel (.limited .insensitive)

/-- Two boxes are each filled with a drawer, in one method, and something is put into each drawer. -/
def drawers : Program where
  classes := #[⟨"Object", none, [], false, false, true, [], []⟩,
    ⟨"Box", some 0, [], false, false, true, [0, 1], [0]⟩]
  fields := #[⟨"content", 1, .cls 0, false⟩]
  methods := #[
    .routine 1 "fill" "void fill()" (some 0) [0, 1] [.new 1 (.cls 1), .storeField 0 0 1],
    .routine 1 "main" "void main()" none [2, 3, 4, 5, 6, 7, 8]
      [.new 2 (.cls 1), .new 3 (.cls 1),
        .invoke ⟨.virtual, ⟨1, "void fill()"⟩, some 2, [], none⟩,
        .invoke ⟨.virtual, ⟨1, "void fill()"⟩, some 3, [], none⟩,
        .loadField 4 2 0, .loadField 5 3 0,
        .new 6 (.cls 0), .new 7 (.cls 0), .storeField 4 0 6, .storeField 5 0 7,
        .loadField 8 4 0]]
  vars := #[⟨"this", .cls 1, 0⟩, ⟨"drawer", .cls 1, 0⟩, ⟨"box", .cls 1, 1⟩, ⟨"box2", .cls 1, 1⟩,
    ⟨"drawer1", .cls 1, 1⟩, ⟨"drawer2", .cls 1, 1⟩, ⟨"in1", .cls 0, 1⟩, ⟨"in2", .cls 0, 1⟩,
    ⟨"out", .cls 0, 1⟩]
  main := some 1

def drawerAnalysis (sel : Selector) : Except AnalysisError Result :=
  Analysis.solve { program := drawers, files := { root := "" }, stepLimit := 400 }
    { implicitEntries := false, plugins := ["null-handler"] } sel

theorem Analysis.ok_of_toOption {ε : Type u} {α : Type v} {outcome : Except ε α} {r : α}
    (returned : outcome.toOption = some r) : outcome = .ok r := by
  cases outcome with
  | error e => cases returned
  | ok r' => rw [Option.some.inj returned]

/-- Evaluation shows that an analysis returns and what its result is like. -/
theorem Analysis.ok_of_decide {ε : Type u} {α : Type v} {outcome : Except ε α} {P : α → Prop} [DecidablePred P]
    (run : outcome.toOption.any (fun r => decide (P r)) = true) : ∃ r, outcome = .ok r ∧ P r := by
  obtain ⟨r, returned, meets⟩ := (Option.any_eq_true _ _).mp run
  exact ⟨r, ok_of_toOption returned, of_decide_eq_true meets⟩

def Analysis.count? (outcome : Except AnalysisError Result) (v : VarId) : Option Nat :=
  outcome.toOption.map fun r => (r.pointsTo v).length

theorem Analysis.count?_eq_some {outcome : Except AnalysisError Result} {v : VarId} {n : Nat}
    (counted : count? outcome v = some n) : ∃ r, outcome = .ok r ∧ (r.pointsTo v).length = n := by
  obtain ⟨r, returned, length⟩ := Option.map_eq_some_iff.mp counted
  exact ⟨r, ok_of_toOption returned, length⟩

/-- Contexts tell the drawers apart: with them one thing is read back, without them two. -/
theorem Analysis.drawers_refine : ∃ r s,
    drawerAnalysis (.guided [(0, .object 2)] .insensitive) = .ok r ∧
      drawerAnalysis (.limited .insensitive) = .ok s ∧ (r.pointsTo 8).length = 1 ∧
      (s.pointsTo 8).length = 2 ∧ r.Within s := by
  obtain ⟨r, solved, one⟩ := count?_eq_some (show count?
    (drawerAnalysis (.guided [(0, .object 2)] .insensitive)) 8 = some 1 by decide +kernel)
  obtain ⟨s, solved', two⟩ := count?_eq_some (show count? (drawerAnalysis (.limited .insensitive)) 8 = some 2 by
    decide +kernel)
  exact ⟨r, s, solved, solved', one, two,
    (Analysis.refines_insensitive rfl rfl (by decide) _).1 r s solved solved'⟩

end PointsTo
