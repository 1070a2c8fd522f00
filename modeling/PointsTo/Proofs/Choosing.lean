import PointsTo.Proofs.Reachability
import PointsTo.Proofs.Truncation

/-!
The selector alone makes contexts. Whatever handlers ask for, a method runs in the empty context or in
one that was chosen at a call of it, and an object stands in the empty context or in one cut from its
method's.
-/
namespace PointsTo

variable {p : Program} {sel : Selector} {rules : HeapRules}

def Fact.Chosen (p : Program) (sel : Selector) : Fact → Prop
  | .reached c m => c = [] ∨ ∃ b site item, c = sel.calleeFrame p b site item m
  | .called _ c site d m => ∃ item, d = sel.calleeFrame p c site item m
  | .points _ _ | .admitted _ _ _ => True

theorem chosen_closed (p : Program) (sel : Selector) (rules : HeapRules) :
    Closed (Rule p sel rules) (Fact.Chosen p sel) := by
  intro premises fact rule hold
  cases rule with
  | callStatic => exact ⟨none, rfl⟩
  | callOn => exact ⟨some _, rfl⟩
  | reach =>
    obtain ⟨item, same⟩ := hold _ (List.mem_singleton_self _)
    exact Or.inr ⟨_, _, item, same⟩
  | _ => trivial

/-- The law that says nothing but which frames methods run in. -/
def Law.choosing (law : Law) (p : Program) (sel : Selector) : Law := { law with holds := Fact.Chosen p sel }

section Choosing

variable {law : Law} {f : Facts} {p : Program} {sel : Selector}

theorem Facts.Sane.of_choosing (free : ∀ x, law.holds x) (sane : f.Sane p (law.choosing p sel)) :
    f.Sane p law where
  methods := fun id c m known => (sane.methods id c m known).imp fun _ named => ⟨named.1, free _⟩
  held := by
    intro q o held
    obtain ⟨x, i, cell, item, _⟩ := sane.held q o held
    exact ⟨x, i, cell, item, free _⟩
  vars := sane.vars
  sites := sane.sites
  calls := by
    intro e recorded
    obtain ⟨c, site, d, m, named, _⟩ := sane.calls e recorded
    exact ⟨c, site, d, m, named, free _⟩

theorem Law.Allows.choosing {x y : Cell} {label : FlowLabel} (allowed : law.Allows p x y label) :
    (law.choosing p sel).Allows p x y label := by
  cases label with
  | plain kind =>
    by_cases guarded : kind = .thisPassing
    · subst guarded
      trivial
    · exact allows_plain guarded fun _ _ => trivial
  | cast ty => exact fun _ _ _ => trivial
  | other info =>
    cases transfer : info.transfer with
    | none => simp [Law.Allows, transfer, Law.choosing, Fact.Chosen]
    | some t =>
      simp only [Law.Allows, transfer] at allowed ⊢
      exact ⟨allowed.1, fun c o d o' passes => ⟨(allowed.2 c o d o' passes).1, fun _ _ => trivial⟩⟩

theorem Facts.Permits.choosing {d : Command} (permitted : f.Permits p sel law d) :
    f.Permits p sel (law.choosing p sel) d := by
  cases d with
  | addPointsTo pointer objs =>
    obtain ⟨x, named, items, places⟩ := permitted
    exact ⟨x, named, fun r member => (items r member).imp fun _ is => ⟨is.1, trivial⟩, places⟩
  | addEntryPoint entry =>
    -- entry methods run in the empty frame
    intro x gives
    cases gives with
    | reached => exact Or.inl rfl
    | _ => trivial
  | addFlow label source target =>
    obtain ⟨x, y, first, second, allowed, rest⟩ := permitted
    exact ⟨x, y, first, second, allowed.choosing, rest⟩
  | addCall kind context site callee receiver =>
    cases receiver with
    | none =>
      obtain ⟨c, named, known, _⟩ := permitted
      exact ⟨c, named, known, none, rfl⟩
    | some r =>
      obtain ⟨c, i, named, known, is, _⟩ := permitted
      exact ⟨c, i, named, known, is, ⟨some i, rfl⟩, fun _ _ => trivial⟩
  | addFilter pointer keep => exact permitted
  | propagate pointer => exact permitted

end Choosing

section Regime

variable {σ : Type u} {cx : Setup σ}

/-- Under a law that forbids nothing and excuses nobody, frames are chosen. -/
def Regime.choosing (R : Regime cx) (free : ∀ x, R.law.holds x) (strict : ∀ c m, ¬ R.law.excused c m) :
    Regime cx where
  law := R.law.choosing cx.program cx.selector
  rules := R.rules
  closed := chosen_closed _ _ _
  excuse := fun c m excused => absurd excused (strict c m)
  exact := R.exact
  declared := R.declared
  Good := R.Good
  mono := R.mono
  react := by
    intro e f h sane same named good
    obtain ⟨good, permitted⟩ := R.react e f h (sane.of_choosing free) same named good
    exact ⟨good, fun c asked => (permitted c asked).choosing⟩
  phaseEnd := by
    intro n f h sane good
    obtain ⟨good, permitted, kept⟩ := R.phaseEnd n f h (sane.of_choosing free) good
    exact ⟨good, fun c asked => (permitted c asked).choosing, kept⟩

theorem Regime.Opens.choosing {R : Regime cx} {heap : Heap} {handler : σ} (opens : R.Opens heap handler)
    (free : ∀ x, R.law.holds x) (strict : ∀ c m, ¬ R.law.excused c m) :
    (R.choosing free strict).Opens heap handler :=
  ⟨opens.rules, opens.good, fun c asked => (opens.permitted c asked).choosing⟩

end Regime

/-- All built-in handlers leave the choice of contexts to the selector. -/
def Chain.choosing (p : Program) (sel : Selector) (rules : HeapRules) (ts : List TaintTransfer)
    (declared : p.Scoped) : Regime ⟨p, sel, Chain.handlers p⟩ :=
  (freely p sel rules ts declared).choosing (fun _ => trivial) fun _ _ => not_false

namespace Registry

variable {p : Program} {o : Options} {files : FileTree} {chain : Chain} {sel : Selector}

variable (made : builtin.chain p o files = .ok chain) (declared : p.Scoped)

include made

theorem opens_choosing :
    (Chain.choosing p sel (HeapRules.ofProgram p o.mergeStrings) chain.transfers declared).Opens
      (Heap.ofProgram p o.mergeStrings) chain := by
  have behaves := chain_behaves sel made
  exact (Chain.opens declared behaves).choosing (fun _ => trivial) fun _ _ => not_false

theorem visited_choosing {s : State Chain} (visited : Solver.Visits ⟨p, sel, Chain.handlers p⟩
      (Solver.start ⟨p, sel, Chain.handlers p⟩ (Heap.ofProgram p o.mergeStrings) chain) s) :
    s.Lawful (Chain.choosing p sel (HeapRules.ofProgram p o.mergeStrings) chain.transfers declared) :=
  (visited.runs.lawful (opens_choosing made declared)).1

theorem solved_choosing {fuel : Nat} {t : State Chain}
    (solved : Solver.solve ⟨p, sel, Chain.handlers p⟩ fuel (Heap.ofProgram p o.mergeStrings) chain = some t) :
    t.Lawful (Chain.choosing p sel (HeapRules.ofProgram p o.mergeStrings) chain.transfers declared) :=
  ((Solver.solve_some solved).halts (opens_choosing made declared)).toLawful

end Registry

namespace Selector

variable {spec : ContextSpec}

def limitOf (sel : Selector) (m : MethodId) : Nat := ((sel.specOf? m).map ContextSpec.limit).getD 0

def largest : Selector → Nat
  | limited spec | selective spec _ => spec.limit
  | guided choices default => choices.foldr (fun choice k => max choice.2.limit k) default.limit

theorem limit_le_largest {sel : Selector} (member : spec ∈ sel.specs) : spec.limit ≤ sel.largest := by
  cases sel with
  | limited only | selective only methods => exact (congrArg _ (List.mem_singleton.mp member)).le
  | guided choices default =>
    induction choices with
    | nil => exact (congrArg _ (List.mem_singleton.mp member)).le
    | cons choice rest ih =>
      rcases List.mem_cons.mp member with rfl | listed
      · exact (ih List.mem_cons_self).trans (le_max_right _ _)
      · rcases List.mem_cons.mp listed with rfl | later
        · exact le_max_left _ _
        · exact (ih (List.mem_cons_of_mem _ later)).trans (le_max_right _ _)

theorem depth_le_largest (sel : Selector) : sel.depth ≤ sel.largest :=
  Finset.sup_le fun _ member => limit_le_largest (List.mem_toFinset.mp member)

theorem limitOf_le_largest (sel : Selector) (m : MethodId) : sel.limitOf m ≤ sel.largest := by
  unfold limitOf
  cases chosen : sel.specOf? m with
  | none => exact Nat.zero_le _
  | some spec => exact limit_le_largest (specOf?_mem chosen)

theorem limitOf_selective {methods : List MethodId} {m : MethodId} (outside : m ∉ methods) :
    (selective spec methods).limitOf m = 0 := by
  simp [limitOf, specOf?, outside]

end Selector

theorem Frame.recent_length (k : Nat) (f : Frame) : (recent k f).length ≤ k := by
  rw [recent, List.length_drop]
  omega

theorem ContextSpec.calleeFrame_length (spec : ContextSpec) (p : Program) (c : Frame) (site : StmtRef)
    (receiver : Option Item) : (spec.calleeFrame p c site receiver).length ≤ spec.limit := by
  unfold calleeFrame
  split
  · exact Nat.zero_le _
  · exact Frame.recent_length _ _
  · exact Frame.recent_length _ _
  · exact Frame.recent_length _ _
  · exact Frame.recent_length _ _
  · split <;> exact Frame.recent_length _ _

namespace Selector

theorem calleeFrame_length (sel : Selector) (p : Program) (c : Frame) (site : StmtRef) (receiver : Option Item)
    (m : MethodId) : (sel.calleeFrame p c site receiver m).length ≤ sel.limitOf m := by
  unfold calleeFrame limitOf
  cases sel.specOf? m with
  | none => exact Nat.zero_le _
  | some spec => exact spec.calleeFrame_length p c site receiver

theorem heapFrame_length (sel : Selector) (c : Frame) (m : MethodId) :
    (sel.heapFrame c m).length ≤ sel.limitOf m - 1 := by
  unfold heapFrame limitOf
  cases sel.specOf? m with
  | none => exact Nat.zero_le _
  | some spec => exact Frame.recent_length _ _

end Selector

theorem Fact.Chosen.length {c : Frame} {m : MethodId} (chosen : Fact.Chosen p sel (.reached c m)) :
    c.length ≤ sel.limitOf m := by
  rcases chosen with rfl | ⟨b, site, item, rfl⟩
  · exact Nat.zero_le _
  · exact sel.calleeFrame_length p b site item m

namespace Facts

variable {f : Facts} {c : ContextId} {frame : Frame}

theorem FrameOf.length (named : f.FrameOf c frame) :
    ∃ elems, f.contexts.entries.get? c = some elems ∧ elems.length = frame.length := by
  obtain ⟨elems, known, spelled⟩ := named
  exact ⟨elems, known, by simpa using congrArg List.length spelled⟩

theorem FrameOf.eq_empty (named : f.FrameOf c frame) (short : frame.length ≤ 0) : c = ContextTable.emptyId := by
  rw [List.length_eq_zero_iff.mp (Nat.le_zero.mp short)] at named
  exact named.inj f.frameOf_empty

/-- All contexts are known and have at most `k` elements, those of objects at most `k - 1`. -/
structure Limits (f : Facts) (k : Nat) : Prop where
  contexts : ∀ c elems, f.contexts.entries.get? c = some elems → elems.length ≤ k
  methods : ∀ id c m, f.elements.method? id = some (c, m) →
    ∃ elems, f.contexts.entries.get? c = some elems ∧ elems.length ≤ k
  objs : ∀ o c id, f.elements.obj? o = some (c, id) →
    ∃ elems, f.contexts.entries.get? c = some elems ∧ elems.length ≤ k - 1

/-- Methods that are not selected run in the empty context, and the objects that they allocate stand in it;
no statement but those of selected methods puts an object into another context. -/
structure EmptyOutside (f : Facts) (p : Program) (selected : List MethodId) : Prop where
  methods : ∀ id c m, f.elements.method? id = some (c, m) → m ∉ selected → c = ContextTable.emptyId
  objs : ∀ o c id obj site, f.elements.obj? o = some (c, id) → f.heap.get? id = some obj →
    obj.site? = some site → site.method ∉ selected → c = ContextTable.emptyId
  merged : ∀ o c id, f.elements.obj? o = some (c, id) → c ≠ ContextTable.emptyId →
    ∃ site lhs ty, p.stmt? site = some (.new lhs ty) ∧
      f.heap.get? id = some (f.heap.rules.allocated site ty) ∧ site.method ∈ selected

end Facts

theorem HeapRules.site?_allocated {site place : StmtRef} {ty : Ty}
    (made : (rules.allocated site ty).site? = some place) : place = site := by
  unfold allocated at made
  split at made
  · cases made
  · exact (Option.some.inj made).symm

namespace State

variable {p : Program} {sel : Selector} {rules : HeapRules} {ts : List TaintTransfer} {declared : p.Scoped}
  {s : State Chain} {c : ContextId}

section

variable (lawful : s.Lawful (Chain.choosing p sel rules ts declared))

include lawful

theorem Lawful.method_length {id : CsMethodId} {m : MethodId} (known : s.elements.method? id = some (c, m)) :
    ∃ frame, s.FrameOf c frame ∧ frame.length ≤ sel.limitOf m := by
  obtain ⟨frame, named, chosen⟩ := lawful.obeys (.method id c m) known
  exact ⟨frame, named, Fact.Chosen.length chosen⟩

theorem Lawful.obj_length {o : CsObjId} {id : ObjId} (known : s.elements.obj? o = some (c, id)) :
    c = ContextTable.emptyId ∨ ∃ site lhs ty frame, p.stmt? site = some (.new lhs ty) ∧
      s.heap.get? id = some (s.heap.rules.allocated site ty) ∧ s.FrameOf c frame ∧
        frame.length ≤ sel.limitOf site.method - 1 := by
  obtain ⟨i, named, found, empty | ⟨b, site, lhs, ty, stmt, rfl⟩⟩ := lawful.obeys (.obj o c id) known
  · exact Or.inl (named.eq_empty (by rw [empty]; exact Nat.le_refl 0))
  · exact Or.inr ⟨site, lhs, ty, _, stmt, found, named, sel.heapFrame_length b site.method⟩

theorem Lawful.limits (within : ∀ c elems, s.contexts.entries.get? c = some elems → elems.length ≤ sel.largest) :
    s.Limits sel.largest where
  contexts := within
  methods := by
    intro id c m known
    obtain ⟨frame, named, _⟩ := lawful.method_length known
    obtain ⟨elems, found, _⟩ := named.length
    exact ⟨elems, found, within c elems found⟩
  objs := by
    intro o c id known
    rcases lawful.obj_length known with rfl | ⟨site, _, _, frame, _, _, named, short⟩
    · exact ⟨[], s.contexts.initial, Nat.zero_le _⟩
    · obtain ⟨elems, found, same⟩ := named.length
      have bound := sel.limitOf_le_largest site.method
      exact ⟨elems, found, by omega⟩

end

section Selective

variable {spec : ContextSpec} {methods : List MethodId}
  (lawful : s.Lawful (Chain.choosing p (.selective spec methods) rules ts declared))

include lawful

theorem Lawful.allocated_selected {o : CsObjId} {c : ContextId} {id : ObjId}
    (known : s.elements.obj? o = some (c, id)) (filled : c ≠ ContextTable.emptyId) :
    ∃ site lhs ty, p.stmt? site = some (.new lhs ty) ∧
      s.heap.get? id = some (s.heap.rules.allocated site ty) ∧ site.method ∈ methods := by
  rcases lawful.obj_length known with empty | ⟨site, lhs, ty, frame, stmt, found, named, short⟩
  · exact absurd empty filled
  · refine ⟨site, lhs, ty, stmt, found, ?_⟩
    by_contra outside
    rw [Selector.limitOf_selective outside] at short
    exact filled (named.eq_empty short)

theorem Lawful.emptyOutside : s.EmptyOutside p methods where
  methods := by
    intro id c m known outside
    obtain ⟨frame, named, short⟩ := lawful.method_length known
    exact named.eq_empty (Selector.limitOf_selective outside ▸ short)
  objs := by
    intro o c id obj site known found made outside
    by_contra filled
    obtain ⟨place, _, _, _, found', inside⟩ := lawful.allocated_selected known filled
    cases found.symm.trans found'
    exact outside (HeapRules.site?_allocated made ▸ inside)
  merged := fun _ _ _ => lawful.allocated_selected

end Selective

end State

/-- The contexts of a run keep to the limits of its selector. -/
structure Facts.Bounded (p : Program) (sel : Selector) (f : Facts) : Prop where
  limits : f.Limits sel.largest
  selected : ∀ spec methods, sel = .selective spec methods → f.EmptyOutside p methods

theorem State.Lawful.bounded {ts : List TaintTransfer} {declared : p.Scoped} {s : State Chain}
    (lawful : s.Lawful (Chain.choosing p sel rules ts declared))
    (within : ∀ c elems, s.contexts.entries.get? c = some elems → elems.length ≤ sel.largest) :
    s.Bounded p sel := by
  refine ⟨lawful.limits within, ?_⟩
  rintro spec methods rfl
  exact lawful.emptyOutside

theorem World.length_le_largest {W : World p sel rules} {t : ContextTable} (within : t.entries.Within W.contexts)
    {c : ContextId} {elems : Context} (known : t.entries.get? c = some elems) : elems.length ≤ sel.largest :=
  (mem_sequences.mp (within c elems known)).1.trans sel.depth_le_largest

namespace Registry

variable {p : Program} {o : Options} {files : FileTree} {chain : Chain}

/-- Contexts are bounded. In every state of a run, and when it returns, no context has more elements than the
largest limit of the selector, and no heap context has as many, unless both are empty; under a selector for
some methods only, the others run in the empty context, and so stand the objects that they allocate. -/
theorem contexts_bounded (made : builtin.chain p o files = .ok chain) (declared : p.Scoped) (sel : Selector) :
    (∀ s, Solver.Visits ⟨p, sel, Chain.handlers p⟩
      (Solver.start ⟨p, sel, Chain.handlers p⟩ (Heap.ofProgram p o.mergeStrings) chain) s → s.Bounded p sel) ∧
    ∀ fuel t, Solver.solve ⟨p, sel, Chain.handlers p⟩ fuel (Heap.ofProgram p o.mergeStrings) chain = some t →
      t.Bounded p sel := by
  obtain ⟨config, makes⟩ := chain_makes made
  have stays : ∀ h ∈ chain, h.Stays (p.worldWith sel o.mergeStrings config) := fun h member =>
    (makes h member).stays
  constructor
  -- contexts that nothing runs or stands in are interned too, so their length is a matter of the world
  · intro s visited
    have started : (Solver.start _ (Heap.ofProgram p o.mergeStrings) chain).Confined
        (Chain.confinement (p.worldWith sel o.mergeStrings config)) :=
      Solver.start_confined _ rfl rfl stays
    have confined := started.visits visited
    exact (visited_choosing made declared visited).bounded fun _ _ =>
      World.length_le_largest confined.contexts
  · intro fuel t solved
    obtain ⟨s, confined, trims, _⟩ := Solver.solve_confined
      (Chain.confinement (p.worldWith sel o.mergeStrings config)) rfl rfl stays solved
    refine (solved_choosing made declared solved).bounded fun c elems known => ?_
    rw [trims.contexts] at known
    exact World.length_le_largest confined.contexts known

end Registry

/-- Where only `fill` is selected, it runs in a context for each box, and each of its drawers stands in one;
the boxes and `main` keep the empty context. -/
theorem Registry.drawers_bounded : ∃ r, drawerAnalysis (.selective (.object 2) [0]) = .ok r ∧
    r.facts.contexts.maxDepth = 1 ∧ (r.facts.elements.methods.items.toList.map (·.2)) = [1, 0, 0] ∧
    (r.facts.elements.objs.items.toList.filter (·.1 ≠ ContextTable.emptyId)).length = 2 ∧
    r.facts.Bounded drawers (.selective (.object 2) [0]) := by
  obtain ⟨r, solved, depth, methods, objs⟩ : ∃ r, drawerAnalysis (.selective (.object 2) [0]) = .ok r ∧
      r.facts.contexts.maxDepth = 1 ∧ (r.facts.elements.methods.items.toList.map (·.2)) = [1, 0, 0] ∧
      (r.facts.elements.objs.items.toList.filter (·.1 ≠ ContextTable.emptyId)).length = 2 :=
    Analysis.ok_of_decide (by decide +kernel)
  obtain ⟨chain, t, made, run, facts⟩ := Analysis.solve_ok rfl solved
  refine ⟨r, solved, depth, methods, objs, ?_⟩
  rw [facts]
  exact (contexts_bounded made (by decide) _).2 _ t run

end PointsTo
