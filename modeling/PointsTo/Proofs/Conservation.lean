import PointsTo.Proofs.Sources

/-!
Tracking taint takes nothing away. What a run with taint finds about other objects is closed under the
inclusion rules and satisfies all other handlers; the run without taint finds the least such facts.
-/
namespace PointsTo

variable {p : Program} {sel : Selector} {ts : List TaintTransfer} {rules : HeapRules}

abbrev Obj.Clean (o : Obj) : Prop := o.isTaint = false

/-- All of the first facts, told by names, is among the second: what is found, and the edges. -/
structure Facts.Embeds (f g : Facts) : Prop where
  spelled : f.Spelled
  found : ∀ x, f.Found x → g.Found x
  edges : ∀ id e, f.flow.edge? id = some e → ∃ x y, f.CellOf e.source x ∧ f.CellOf e.target y ∧
    g.Linked e.label x y

theorem Story.only {σ : Type u} {τ : Type v} {keep : Obj → Prop} {react : Event → Facts → τ → Reaction τ}
    {first : τ} {record : List (Moment σ)} {t : Facts}
    (story : Story p sel (Law.free ts) rules keep react first record t) :
    Story p sel (Law.only p fun _ => True) rules keep react first record t := by
  refine { story with sound := fun x listed => ?_ }
  have sound := story.sound x listed
  exact ⟨sound.sane.only, sound.rules, sound.named⟩

theorem Chain.sifts_clean {declared : p.Scoped} {chain : Chain}
    {sleeps : (Chain.freely p sel rules ts declared).Sleeps} {w u : State (Watched Chain)}
    (heeds : Solver.Heeds (Chain.freely p sel rules ts declared) chain sleeps w)
    (finishes : Solver.Finishes (Chain.setup p sel).watched w u) :
    w.Sifts ((Chain.freely p sel rules ts declared).watched chain sleeps) Obj.Clean := by
  refine ⟨heeds.halts finishes, fun _ => id, fun q test attached obj clean => ?_⟩
  obtain ⟨c, v, _, x, listed, asked⟩ := heeds.attached q test attached
  obtain ⟨_, _, _, rfl⟩ := filtered_by_taint heeds listed asked
  simp [clean]

namespace Registry

variable {p : Program} {o : Options} {files : FileTree} {chain : Chain} {sel : Selector}

theorem chain_without (made : builtin.chain p o files = .ok chain) : ∃ plain,
    builtin.chain p { o with taintConfig := none } files = .ok plain ∧ ∀ h ∈ plain, h ∈ chain := by
  obtain ⟨_, tainting, extras, rfl, _, created⟩ := chain_eq made
  refine ⟨[.timer, .entries (Entries.ofOptions p o), .initializers {},
      .threads { methods := ThreadMethods.ofProgram p o }, .natives (Natives.ofProgram p), .exceptions {}]
    ++ (if o.reflection then [.reflection (Reflection.ofProgram p)] else [])
    ++ [] ++ extras ++ [.warnings {}], ?_, fun h listed => ?_⟩
  · simp only [Registry.chain, created, Option.isSome_none, Bool.false_eq_true, if_false, bind, Except.bind,
      pure, Except.pure]
    rfl
  · simp only [List.mem_append, List.not_mem_nil, or_false] at listed ⊢
    tauto

section Runs

variable (made : builtin.chain p o files = .ok chain) (declared : p.Scoped) {fuel : Nat} {t : State Chain}
  (solved : Solver.solve (Chain.setup p sel) fuel (Heap.ofProgram p o.mergeStrings) chain = some t)
include made declared solved

/-- What a run finds about all but taint is closed and has all its edges, and each handler was told about
it. -/
theorem solved_clean :
    Closed (Rule p sel (HeapRules.ofProgram p o.mergeStrings)) (t.Upholds Obj.Clean) ∧
      (∀ label x y, FlowRule p (t.Upholds Obj.Clean) label x y → t.Linked label x y) ∧
      ∃ record : List (Moment Chain), ∀ h ∈ chain,
        Story p sel (Law.only p fun _ => True) (HeapRules.ofProgram p o.mergeStrings) Obj.Clean
          (Handler.react p) h record t.toFacts := by
  obtain ⟨w, u, heeds, finishes, facts, _⟩ := solved_heeds made declared solved
  have sifts := Chain.sifts_clean heeds finishes
  have pure : ∀ x, ¬ (Law.free chain.transfers).injected x := fun _ => not_false
  rw [facts]
  refine ⟨heeds.settles.closed_kept sifts fun c v i injected => (pure _ injected).elim,
    fun label x y rule => heeds.settles.linked pure (fun _ upheld => upheld.1) rule,
    w.record, fun h member => ?_⟩
  exact ((heeds.story finishes sifts).member member).only

theorem solved_satisfies_clean {h : Handler} (member : h ∈ chain) (plain : ∀ s, h ≠ .taint s) :
    h.Satisfied p sel (HeapRules.ofProgram p o.mergeStrings) (t.Upholds Obj.Clean) := by
  obtain ⟨_, _, record, stories⟩ := solved_clean made declared solved
  obtain ⟨config, makes⟩ := chain_makes made
  exact (makes h member).satisfied plain (stories h member)

theorem solved_carries_clean {label : FlowLabel} {x y : Cell}
    (flow : Natives.Flow p (t.Upholds Obj.Clean) label x y) : t.Linked label x y := by
  obtain ⟨_, _, record, stories⟩ := solved_clean made declared solved
  have listed : .natives (Natives.ofProgram p) ∈ chain := by
    obtain ⟨_, _, _, rfl, _, _⟩ := chain_eq made
    simp
  have story : Story p sel (Law.only p fun _ => True) (HeapRules.ofProgram p o.mergeStrings) Obj.Clean
      (fun e f s => Natives.react p s f e) (Natives.ofProgram p) record t.toFacts :=
    (stories _ listed).restrict Handler.natives fun _ _ _ => rfl
  exact (Natives.carries story flow).linked

theorem solved_embeds {plain : Chain} (without : builtin.chain p { o with taintConfig := none } files = .ok plain)
    {fuel' : Nat} {s : State Chain} (solved' : Solver.solve (Chain.setup p sel) fuel'
      (Heap.ofProgram p o.mergeStrings) plain = some s) : s.Embeds t.toFacts := by
  obtain ⟨closed, linked, _⟩ := solved_clean made declared solved
  obtain ⟨_, makes⟩ := chain_makes without
  obtain ⟨plain', without', inside⟩ := chain_without made
  obtain rfl := Except.ok.inj (without.symm.trans without')
  have satisfied : ∀ h ∈ plain, h.Satisfied p sel (HeapRules.ofProgram p o.mergeStrings)
      (t.Upholds Obj.Clean) := fun h member =>
    solved_satisfies_clean made declared solved (inside h member) ((makes h member).plain rfl)
  obtain ⟨kept, edges, _⟩ := solved_lawful without declared closed satisfied solved'
  refine ⟨(solved_satisfied without rfl declared solved').1, fun x found => (kept x found).1,
    fun id e edge => ?_⟩
  obtain ⟨x, y, source, target, rule | flow⟩ := edges id e edge
  · exact ⟨x, y, source, target, linked e.label x y rule⟩
  · exact ⟨x, y, source, target, solved_carries_clean made declared solved flow⟩

end Runs

end Registry

namespace Analysis

variable {a : Analysis} {o : Options} {chain : Chain} {r : Result}

theorem selector_without (a : Analysis) (o : Options) (spec : ContextSpec) (advanced : Option Advanced) :
    a.selector { o with taintConfig := none } spec advanced = a.selector o spec advanced := by
  cases advanced with
  | none => rfl
  | some choice => cases choice <;> rfl

theorem run_eq_ok : a.run o = .ok r ↔ o.validate = .ok () ∧ ∃ spec advanced sel, o.spec = .ok spec ∧
    o.advanced? = .ok advanced ∧ a.selector o spec advanced = .ok sel ∧ a.solve o sel = .ok r := by
  simp only [run, bind, Except.bind]
  cases valid : o.validate with
  | error e => simp [Except.mapError]
  | ok _ =>
    cases known : o.spec with
    | error e => simp [Except.mapError]
    | ok spec =>
      cases known' : o.advanced? with
      | error e => simp [Except.mapError]
      | ok advanced =>
        cases chosen : a.selector o spec advanced with
        | error e => simp [Except.mapError, chosen]
        | ok sel => simp [Except.mapError, chosen]

section

variable (registered : a.registry = Registry.builtin)

include registered

theorem selector_stable (made : Registry.builtin.chain a.program o a.files = .ok chain) (spec : ContextSpec)
    (advanced : Option Advanced) : ∃ n sel, ∀ limit, n ≤ limit →
      { a with stepLimit := limit }.selector o spec advanced = .ok sel := by
  obtain ⟨plain, without, _⟩ := Registry.chain_without made
  obtain ⟨n, r, ends⟩ := solve_stable
    (o := { o with cs := ContextSpec.insensitive.name, advanced := none, taintConfig := none })
    registered without (.limited .insensitive)
  have preliminary : ∀ limit, n ≤ limit → { a with stepLimit := limit }.preliminary o = .ok r := ends
  cases advanced with
  | none => exact ⟨0, _, fun _ _ => rfl⟩
  | some choice =>
    cases choice with
    | collection => exact ⟨0, .selective spec (collectionMethods a.program), fun _ _ => rfl⟩
    | scaler =>
      refine ⟨n, .guided (scalerChoices r defaultBudget) .insensitive, fun limit enough => ?_⟩
      simp only [selector, preliminary limit enough, bind, Except.bind]
      rfl
    | zipper =>
      refine ⟨n, .selective spec (zipperMethods r), fun limit enough => ?_⟩
      simp only [selector, preliminary limit enough, bind, Except.bind]
      rfl

theorem run_returns (made : Registry.builtin.chain a.program o a.files = .ok chain) (valid : o.validate = .ok ()) :
    ∃ n, ∀ limit, n ≤ limit → ∃ r, { a with stepLimit := limit }.run o = .ok r := by
  obtain ⟨spec, advanced, known, known'⟩ : ∃ spec advanced, o.spec = .ok spec ∧
      o.advanced? = .ok advanced := by
    cases spec : o.spec with
    | error e => simp [Options.validate, spec, bind, Except.bind] at valid
    | ok spec' =>
      cases advanced : o.advanced? with
      | error e => simp [Options.validate, spec, advanced, bind, Except.bind] at valid
      | ok advanced' => exact ⟨spec', advanced', rfl, rfl⟩
  obtain ⟨n, sel, chosen⟩ := selector_stable registered made spec advanced
  obtain ⟨n', r, ends⟩ := solve_stable registered made sel
  refine ⟨max n n', fun limit enough => ⟨r, run_eq_ok.mpr ⟨valid, spec, advanced, sel, known, known', ?_, ?_⟩⟩⟩
  · exact chosen limit (le_trans (le_max_left n n') enough)
  · exact ends limit (le_trans (le_max_right n n') enough)

theorem runs_return {e : Options} {chain' : Chain} (made : Registry.builtin.chain a.program o a.files = .ok chain)
    (valid : o.validate = .ok ()) (made' : Registry.builtin.chain a.program e a.files = .ok chain')
    (valid' : e.validate = .ok ()) :
    ∃ n, ∀ limit, n ≤ limit → ∃ r s, { a with stepLimit := limit }.run o = .ok r ∧
      { a with stepLimit := limit }.run e = .ok s := by
  obtain ⟨n, returns⟩ := run_returns registered made valid
  obtain ⟨n', returns'⟩ := run_returns registered made' valid'
  refine ⟨max n n', fun limit enough => ?_⟩
  obtain ⟨r, ran⟩ := returns limit (le_trans (le_max_left n n') enough)
  obtain ⟨s, ran'⟩ := returns' limit (le_trans (le_max_right n n') enough)
  exact ⟨r, s, ran, ran'⟩

theorem solve_embeds (declared : a.program.Scoped) {sel : Selector} {s : Result}
    (without : a.solve { o with taintConfig := none } sel = .ok r) (solved : a.solve o sel = .ok s) :
    r.facts.Embeds s.facts := by
  obtain ⟨plain, t, made, run, facts⟩ := solve_ok registered without
  obtain ⟨chain, t', made', run', facts'⟩ := solve_ok registered solved
  rw [facts, facts']
  exact Registry.solved_embeds made' declared run' made run

end

/-- Tracking taint is conservative: all that an analysis finds without taint, it finds with taint as well,
under every selector and for all options; and both analyses return. -/
theorem taint_conservative (registered : a.registry = Registry.builtin) (declared : a.program.Scoped) :
    (∀ sel r s, a.solve { o with taintConfig := none } sel = .ok r → a.solve o sel = .ok s →
      r.facts.Embeds s.facts) ∧
    (∀ r s, a.run { o with taintConfig := none } = .ok r → a.run o = .ok s → r.facts.Embeds s.facts) ∧
    ∀ chain, a.registry.chain a.program o a.files = .ok chain → o.validate = .ok () → ∃ n, ∀ limit, n ≤ limit →
      ∃ r s, { a with stepLimit := limit }.run { o with taintConfig := none } = .ok r ∧
        { a with stepLimit := limit }.run o = .ok s := by
  refine ⟨fun sel r s without solved => solve_embeds registered declared without solved,
    fun r s without ran => ?_, fun chain made valid => ?_⟩
  · obtain ⟨_, spec, advanced, sel, known, known', chosen, solved⟩ := run_eq_ok.mp ran
    obtain ⟨_, spec', advanced', sel', known₁, known₁', chosen', without⟩ := run_eq_ok.mp without
    -- both analyses work with one selector
    obtain rfl := Except.ok.inj (known.symm.trans known₁)
    obtain rfl := Except.ok.inj (known'.symm.trans known₁')
    rw [selector_without, chosen] at chosen'
    obtain rfl := Except.ok.inj chosen'
    exact solve_embeds registered declared without solved
  · rw [registered] at made
    obtain ⟨plain, without, _⟩ := Registry.chain_without made
    exact runs_return registered without valid made valid

/-- In the shop the rag is tainted, and the wash keeps the taint of the rag away but not the rag. -/
theorem shop_conservative : ∃ r s,
    shopAnalysis.solve { shopOptions with taintConfig := none } (.limited (.callSite 1)) = .ok r ∧
      shopAnalysis.solve shopOptions (.limited (.callSite 1)) = .ok s ∧ (r.pointsTo 8).length = 1 ∧
      s.facts.taints 8 = [false, true] ∧ s.facts.taints 1 = [false] ∧ r.facts.Embeds s.facts := by
  obtain ⟨r, without, one⟩ := count?_eq_some (show count? (shopAnalysis.solve
    { shopOptions with taintConfig := none } (.limited (.callSite 1))) 8 = some 1 by decide +kernel)
  obtain ⟨t, run, taints⟩ := shop_taints
  simp only [List.map_cons, List.map_nil, List.cons.injEq] at taints
  have solved := shop_result run
  exact ⟨r, _, without, solved, one, taints.2.2.2.1, taints.1,
    (taint_conservative rfl (by decide)).1 _ r _ without solved⟩

end Analysis

end PointsTo
