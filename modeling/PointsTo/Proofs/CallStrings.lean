import PointsTo.Proofs.Choosing

/-!
What contexts of call sites mean. A method runs in the context of the last call sites on the way to it, on
every way that calls lead from an entry method, and no other way leads to a reachable method.
-/
namespace PointsTo

namespace Facts

variable {f : Facts}

theorem elem?_callSite {e : ContextElem} {site : StmtRef} (named : f.elem? e = some (.callSite site)) :
    e = .callSite site := by
  cases e <;> simp_all [elem?]

theorem Spells.callSites {elems : Context} {sites : List StmtRef}
    (spelled : f.Spells elems (sites.map .callSite)) : elems = sites.map .callSite := by
  induction sites generalizing elems with
  | nil => simpa [Spells] using spelled
  | cons site rest ih =>
    cases elems with
    | nil => simp [Spells] at spelled
    | cons e elems =>
      simp only [Spells, List.map_cons, List.cons.injEq] at spelled
      rw [elem?_callSite spelled.1, ih spelled.2, List.map_cons]

/-- Recorded calls at these sites lead, one after the other, from an entry method to a method. -/
inductive CallPath (f : Facts) : List StmtRef → CsMethodId → Prop
  | entry {id : CsMethodId} (starts : id ∈ f.calls.entries) : CallPath f [] id
  | call {sites : List StmtRef} {e : CallEdge} {caller : CsMethodId} {c : ContextId} {site : StmtRef}
      (path : CallPath f sites caller) (known : f.elements.method? caller = some (c, site.method))
      (place : f.elements.site? e.site = some (c, site)) (recorded : e ∈ f.calls.edges) :
      CallPath f (sites ++ [site]) e.callee

end Facts

theorem Frame.recent_callSites (k : Nat) (sites : List StmtRef) :
    recent k (sites.map .callSite) = (sites.drop (sites.length - k)).map .callSite := by
  rw [recent, List.length_map, List.map_drop]

namespace State

variable {p : Program} {k : Nat} {rules : HeapRules} {ts : List TaintTransfer} {declared : p.Scoped}
  {s : State Chain} {sites : List StmtRef} {id : CsMethodId}

theorem Lawful.callPath (lawful : s.Lawful (Chain.choosing p (.limited (.callSite k)) rules ts declared))
    (path : s.CallPath sites id) : ∃ m, s.MethodOf id (Frame.recent k (sites.map .callSite)) m := by
  induction path with
  | entry starts =>
    obtain ⟨m, known⟩ := lawful.obeys (.start _) starts
    exact ⟨m, _, known, (Frame.recent_nil k).symm ▸ s.frameOf_empty⟩
  | @call sites e caller c site _ known place recorded ih =>
    obtain ⟨_, c', known', here⟩ := ih
    cases known.symm.trans known'
    obtain ⟨frame, site', d, m, ⟨⟨c', place', there⟩, callee⟩, _, chosen⟩ :=
      lawful.obeys (.call e) (Or.inl recorded)
    cases place.symm.trans place'
    -- the caller has the context of the site, so both are spelled alike
    obtain rfl := there.unique here
    have next : d = Frame.recent k ((sites ++ [site]).map .callSite) := by
      rw [chosen, List.map_append, List.map_singleton]
      exact Frame.recent_append_recent (Nat.le_succ k) _ _
    exact ⟨m, next ▸ callee⟩

theorem Grounded.callPath {cx : Setup Chain} {R : Regime cx} (grounded : s.Grounded id) (stands : s.Stands R) :
    ∃ sites, s.CallPath sites id := by
  induction grounded with
  | entry starts => exact ⟨[], .entry starts⟩
  | called made place known _ ih =>
    obtain ⟨sites, path⟩ := ih
    exact ⟨_, path.call known place (stands.recorded made)⟩

end State

/-- Contexts of call sites are call strings. When a run returns, the context of a method is the list of the
last `k` call sites, or of all if there are fewer, on every way along recorded calls from an entry method;
and such ways lead to the reachable methods and to no others. And every run returns. -/
theorem Analysis.contexts_call_strings {a : Analysis} {o : Options} (registered : a.registry = Registry.builtin)
    (declared : a.program.Scoped) (k : Nat) :
    (∀ r, a.solve o (.limited (.callSite k)) = .ok r →
      (∀ sites id, r.facts.CallPath sites id → ∃ c m, r.facts.elements.method? id = some (c, m) ∧
        r.facts.contexts.entries.get? c = some ((sites.drop (sites.length - k)).map .callSite)) ∧
      ∀ id, id ∈ r.facts.calls.reachable ↔ ∃ sites, r.facts.CallPath sites id) ∧
      ∀ chain, a.registry.chain a.program o a.files = .ok chain → ∃ n, ∀ limit, n ≤ limit →
        ∃ r, { a with stepLimit := limit }.solve o (.limited (.callSite k)) = .ok r := by
  refine solve_spec registered _ fun chain t made run => ?_
  have lawful := Registry.solved_choosing made declared run
  have stands := Registry.solved_stands made declared run
  have strings : ∀ {sites id}, t.CallPath sites id → ∃ c m, t.elements.method? id = some (c, m) ∧
      t.contexts.entries.get? c = some ((sites.drop (sites.length - k)).map .callSite) := by
    intro sites id path
    obtain ⟨m, c, known, elems, found, spelled⟩ := lawful.callPath path
    rw [Frame.recent_callSites] at spelled
    exact ⟨c, m, known, spelled.callSites ▸ found⟩
  refine ⟨fun sites id => strings, fun id => ⟨fun reachable => ?_, ?_⟩⟩
  · obtain ⟨c, m, known⟩ := stands.obeys (.reachable id) reachable
    exact (stands.grounded id _ known).callPath stands
  · rintro ⟨sites, path⟩
    -- no call waits, so whatever is known is reachable
    obtain ⟨c, m, known, _⟩ := strings path
    obtain ⟨id', reachable, same⟩ := stands.toSettles.reaches stands.calls ⟨id, known⟩
    exact Table.get?_inj same known ▸ reachable

/-- A method that is called twice calls itself, and another one after that. -/
def echoes : Program where
  classes := #[⟨"Object", none, [], false, false, true, [0, 1, 2], []⟩]
  methods := #[
    .routine 0 "echo" "void echo()" none []
      [.invoke ⟨.static, ⟨0, "void echo()"⟩, none, [], none⟩,
        .invoke ⟨.static, ⟨0, "void fade()"⟩, none, [], none⟩],
    .routine 0 "fade" "void fade()" none [] [],
    .routine 0 "main" "void main()" none []
      [.invoke ⟨.static, ⟨0, "void echo()"⟩, none, [], none⟩,
        .invoke ⟨.static, ⟨0, "void echo()"⟩, none, [], none⟩]]
  main := some 2

def echoAnalysis : Except AnalysisError Result :=
  Analysis.solve { program := echoes, files := { root := "" }, stepLimit := 200 } { implicitEntries := false }
    (.limited (.callSite 2))

/-- On the way from `main` around the loop and out of it, two sites are remembered. -/
theorem Analysis.echoes_call_strings : ∃ r, echoAnalysis = .ok r ∧ r.facts.calls.reachable.length = 9 ∧
    r.facts.CallPath [⟨2, 1⟩, ⟨0, 0⟩, ⟨0, 0⟩, ⟨0, 0⟩, ⟨0, 1⟩] 8 ∧ ∃ c m, r.facts.elements.method? 8 = some (c, m) ∧
      r.facts.contexts.entries.get? c = some [.callSite ⟨0, 0⟩, .callSite ⟨0, 1⟩] := by
  obtain ⟨r, solved, same⟩ : ∃ r, echoAnalysis = .ok r ∧ r.facts.calls.reachable.length = 9 ∧
      0 ∈ r.facts.calls.entries ∧
      [0, 2, 5, 7].map r.facts.elements.method? = [some (0, 2), some (2, 0), some (5, 0), some (7, 0)] ∧
      [1, 4, 8, 10, 11].map r.facts.elements.site? = [some (0, ⟨2, 1⟩), some (2, ⟨0, 0⟩), some (5, ⟨0, 0⟩),
        some (7, ⟨0, 0⟩), some (7, ⟨0, 1⟩)] ∧
      ∀ e ∈ ([⟨.static, 1, 2⟩, ⟨.static, 4, 5⟩, ⟨.static, 8, 7⟩, ⟨.static, 10, 7⟩, ⟨.static, 11, 8⟩] :
        List CallEdge), e ∈ r.facts.calls.edges := ok_of_decide (by decide +kernel)
  simp only [List.map_cons, List.map_nil, List.cons.injEq, List.forall_mem_cons] at same
  obtain ⟨size, entry, ⟨main, first, second, loop, _⟩, ⟨atMain, atFirst, atSecond, atLoop, atEnd, _⟩,
    toFirst, toSecond, toLoop, around, toEnd, _⟩ := same
  have path : r.facts.CallPath [⟨2, 1⟩, ⟨0, 0⟩, ⟨0, 0⟩, ⟨0, 0⟩, ⟨0, 1⟩] 8 :=
    ((((Facts.CallPath.entry entry).call
      main atMain toFirst).call first atFirst toSecond).call second atSecond toLoop).call loop atLoop around
      |>.call loop atEnd toEnd
  exact ⟨r, solved, size, path, ((contexts_call_strings rfl (by decide) 2).1 r solved).1 _ _ path⟩

end PointsTo
