import PointsTo.Analysis
import PointsTo.Proofs.Escape

/-!
Runs with the built-in handlers. They add objects, edges, calls and entry points of their own; whatever
they add, a run ends in facts that are closed under the inclusion rules.
-/
namespace PointsTo

namespace Handler

variable {f g : Facts} {p : Program} {sel : Selector} {rules : HeapRules} {holds : Fact → Prop}
  {h : Handler}

/-- The law satisfies the handler and what it remembers is so; of scripts and taint nothing can be said. -/
def Remembers (p : Program) (sel : Selector) (rules : HeapRules) (holds : Fact → Prop) (f : Facts) :
    Handler → Prop
  | timer | warnings _ => True
  | entries s => s.Satisfied p holds
  | initializers _ => Initialized.Satisfied p holds
  | threads s => s.Remembers p rules holds f
  | natives s => s.Remembers p holds
  | exceptions s => s.Remembers p holds f
  | reflection s => s.Remembers p sel rules holds
  | nulls s => s.Remembers p (· == .null) (fun _ _ => some nullObj) holds
  | numbers s => s.Remembers p Literal.isNumber (numberObj? p) holds
  | taint _ | script _ => False

theorem Remembers.later (remembers : h.Remembers p sel rules holds f) (grown : f.Extends g) :
    h.Remembers p sel rules holds g := by
  cases h with
  | threads s => exact Threads.Remembers.later remembers grown
  | exceptions s => exact Exceptions.Remembers.later remembers grown
  | _ => exact remembers

theorem react_proper (remembers : h.Remembers p sel f.heap.rules holds f)
    (sane : f.Sane p (Law.only p holds)) (declared : p.Scoped) {e : Event}
    (named : e = .started ∨ e.Named f) :
    (h.react p e f).Proper f p sel holds (Remembers p sel f.heap.rules holds f) := by
  cases h with
  | timer => exact Reaction.proper_silent trivial
  | entries s => exact (Entries.react_proper remembers e).map _ fun _ good => good
  | initializers s => exact (s.react_proper remembers sane named).map _ fun _ good => good
  | threads s | natives s | exceptions s | reflection s =>
    exact (s.react_proper remembers sane declared named).map _ fun _ good => good
  | nulls s | numbers s => exact (s.react_proper remembers sane declared e).map _ fun _ good => good
  | warnings s =>
    refine ⟨trivial, fun c member => ?_⟩
    cases e with
    | unresolved receiver context site =>
      simp only [react, Reaction.map, Warnings.react] at member
      split at member <;> cases member
    | _ => cases member
  | taint s => exact remembers.elim
  | script s => exact remembers.elim

theorem Remembers.plain (remembers : h.Remembers p sel rules holds f) (s : Script) : h ≠ .script s := by
  rintro rfl
  exact remembers

theorem phaseEnd_silent (plain : ∀ s, h ≠ .script s) (f : Facts) (n : Nat) :
    h.phaseEnd f n = { state := h } := by
  cases h with
  | script s => exact absurd rfl (plain s)
  | _ => rfl

end Handler

namespace Chain

variable {f : Facts} {p : Program} {sel : Selector} {rules : HeapRules} {holds : Fact → Prop} {chain : Chain}
  {heap : Heap}

/-! A chain answers with what each of its handlers answers. -/

theorem react_state (p : Program) (e : Event) (f : Facts) (chain : Chain) :
    (Chain.react p e f chain).state = chain.map fun h => (h.react p e f).state := by
  induction chain with
  | nil => rfl
  | cons h rest ih => rw [Chain.react, List.map_cons, ih]

theorem mem_created {e : Event} {o : Obj} :
    o ∈ (Chain.react p e f chain).created ↔ ∃ h ∈ chain, o ∈ (h.react p e f).created := by
  induction chain with
  | nil => simp [Chain.react]
  | cons h rest ih => simp [Chain.react, ih]

theorem mem_commands {e : Event} {c : Command} :
    c ∈ (Chain.react p e f chain).commands ↔ ∃ h ∈ chain, c ∈ (h.react p e f).commands := by
  induction chain with
  | nil => simp [Chain.react]
  | cons h rest ih => simp [Chain.react, ih]

def Remembers (p : Program) (sel : Selector) (rules : HeapRules) (holds : Fact → Prop) (f : Facts)
    (chain : Chain) : Prop := ∀ h ∈ chain, h.Remembers p sel rules holds f

theorem react_proper (remembers : chain.Remembers p sel f.heap.rules holds f)
    (sane : f.Sane p (Law.only p holds)) (declared : p.Scoped) {e : Event}
    (named : e = .started ∨ e.Named f) :
    (Chain.react p e f chain).Proper f p sel holds (Remembers p sel f.heap.rules holds f) := by
  have each := fun h listed => Handler.react_proper (remembers h listed) sane declared named
  refine ⟨?_, fun d asked => ?_⟩
  · rw [react_state]
    exact List.forall_mem_map.mpr fun h listed => (each h listed).state
  · obtain ⟨h, listed, asked⟩ := mem_commands.mp asked
    exact (each h listed).commands d asked

theorem phaseEnd_silent (plain : ∀ h ∈ chain, ∀ s, h ≠ .script s) (f : Facts) (n : Nat) :
    Chain.phaseEnd f n chain = { state := chain } := by
  induction chain generalizing n with
  | nil => rfl
  | cons h rest ih =>
    obtain ⟨first, others⟩ := List.forall_mem_cons.mp plain
    simp only [Chain.phaseEnd, Handler.phaseEnd_silent first, Facts.removeAll, List.foldl_nil, ih others,
      List.append_nil]

/-- The handlers keep their contract under every closed set of facts that satisfies them. -/
def regime (p : Program) (sel : Selector) (rules : HeapRules) (declared : p.Scoped)
    (closed : Closed (Rule p sel rules) holds) : Regime ⟨p, sel, Chain.handlers p⟩ where
  law := Law.only p holds
  rules := rules
  closed := closed
  excuse := fun _ _ => False.elim
  exact := fun _ _ _ _ _ _ => Natives.Flow.exact
  declared := declared
  Good := fun f chain => chain.Remembers p sel rules holds f
  mono := fun _ _ _ grown remembers h member => (remembers h member).later grown
  react := by
    intro e f chain sane same named remembers
    subst same
    have proper : (Chain.react p e f chain).Proper f p sel holds (Remembers p sel f.heap.rules holds f) :=
      react_proper remembers sane declared (Or.inr named)
    exact ⟨proper.state, proper.commands⟩
  phaseEnd := by
    intro n f chain _ remembers
    show Remembers p sel rules holds f (Chain.phaseEnd f n chain).state ∧
      (∀ c ∈ (Chain.phaseEnd f n chain).commands, _) ∧ (Chain.phaseEnd f n chain).removals = []
    rw [phaseEnd_silent fun h member => (remembers h member).plain]
    exact ⟨remembers, List.forall_mem_nil _, rfl⟩

theorem blank_sane (heap : Heap) (law : Law) : Facts.Sane { heap } p law where
  methods := fun _ _ _ known => by cases known
  held := fun q o held => by
    obtain ⟨set, found, _⟩ := held
    simp [Elements.pts?] at found
  vars := fun _ _ _ known => by cases known
  sites := fun _ _ _ known => by cases known
  calls := fun _ member => by cases member

theorem starts_under (declared : p.Scoped) (closed : Closed (Rule p sel heap.rules) holds)
    (remembers : chain.Remembers p sel heap.rules holds { heap }) :
    (regime p sel heap.rules declared closed).Starts heap chain := by
  have proper : (Chain.react p .started { heap } chain).Proper { heap } p sel holds
      (Remembers p sel heap.rules holds { heap }) :=
    react_proper remembers (blank_sane heap _) declared (Or.inl rfl)
  exact ⟨⟨rfl, proper.state, proper.commands⟩, not_false⟩

theorem starts (sel : Selector) (declared : p.Scoped)
    (remembers : chain.Remembers p sel heap.rules (fun _ => True) { heap }) :
    (regime p sel heap.rules declared fun _ _ _ _ => trivial).Starts heap chain :=
  starts_under declared _ remembers

end Chain

namespace Registry

variable {p : Program} {o : Options} {config : TaintConfig} {files : FileTree} {chain : Chain} {h : Handler}
  {extras : List Handler} {rules : HeapRules} {holds : Fact → Prop} {sel : Selector}

theorem builtin_makes {id : String} (made : builtin.create id = .ok h) : h = .numbers {} ∨ h = .nulls {} := by
  simp only [create, builtin, register, List.lookup_cons, List.lookup_nil] at made
  cases number : id == "number-literal" with
  | true =>
    rw [number] at made
    exact Or.inl (Except.ok.inj made).symm
  | false =>
    cases null : id == "null-handler" with
    | true =>
      rw [number, null] at made
      exact Or.inr (Except.ok.inj made).symm
    | false =>
      rw [number, null] at made
      cases made

theorem builtin_makes_all {ids : List String} (made : ids.mapM builtin.create = .ok extras) :
    ∀ h ∈ extras, h = .numbers {} ∨ h = .nulls {} := by
  induction ids generalizing extras with
  | nil =>
    cases made
    exact List.forall_mem_nil _
  | cons id rest ih =>
    rw [List.mapM_cons] at made
    cases first : builtin.create id with
    | error e => simp [first, bind, Except.bind] at made
    | ok h =>
      cases later : rest.mapM builtin.create with
      | error e => simp [first, later, bind, Except.bind] at made
      | ok others =>
        simp only [first, later, bind, Except.bind, pure, Except.pure, Except.ok.injEq] at made
        subst made
        exact List.forall_mem_cons.mpr ⟨builtin_makes first, ih later⟩

theorem taintHandler_ok (made : taintHandler p o files = .ok h) :
    ∃ config, h = .taint (Taint.ofConfig config) := by
  unfold taintHandler at made
  cases path : o.taintConfig with
  | none =>
    rw [path] at made
    cases made
    exact ⟨_, rfl⟩
  | some file =>
    cases loaded : TaintConfig.load p files file with
    | error e => simp [path, loaded, bind, Except.bind] at made
    | ok config =>
      simp only [path, loaded, bind, Except.bind] at made
      cases made
      exact ⟨_, rfl⟩

inductive Makes (p : Program) (o : Options) (config : TaintConfig) : Handler → Prop
  | timer : Makes p o config .timer
  | entries : Makes p o config (.entries (Entries.ofOptions p o))
  | initializers : Makes p o config (.initializers {})
  | threads : Makes p o config (.threads { methods := ThreadMethods.ofProgram p o })
  | natives : Makes p o config (.natives (Natives.ofProgram p))
  | exceptions : Makes p o config (.exceptions {})
  | reflection : Makes p o config (.reflection (Reflection.ofProgram p))
  | taint (tainted : o.taintConfig.isSome = true) : Makes p o config (.taint (Taint.ofConfig config))
  | nulls : Makes p o config (.nulls {})
  | numbers : Makes p o config (.numbers {})
  | warnings : Makes p o config (.warnings {})

theorem makes_chain {tainting : List Handler} (tainted : ∀ h ∈ tainting, Makes p o config h)
    (made : o.plugins.mapM builtin.create = .ok extras) :
    ∀ h ∈ [.timer, .entries (Entries.ofOptions p o), .initializers {},
      .threads { methods := ThreadMethods.ofProgram p o }, .natives (Natives.ofProgram p), .exceptions {}]
        ++ (if o.reflection then [.reflection (Reflection.ofProgram p)] else [])
        ++ tainting ++ extras ++ [.warnings {}], Makes p o config h := by
  intro h member
  simp only [List.mem_append] at member
  rcases member with (((first | reflective) | given) | added) | last
  · simp only [List.mem_cons, List.not_mem_nil, or_false] at first
    rcases first with rfl | rfl | rfl | rfl | rfl | rfl
    · exact .timer
    · exact .entries
    · exact .initializers
    · exact .threads
    · exact .natives
    · exact .exceptions
  · split at reflective
    · cases List.mem_singleton.mp reflective
      exact .reflection
    · cases reflective
  · exact tainted h given
  · rcases builtin_makes_all made h added with rfl | rfl
    · exact .numbers
    · exact .nulls
  · cases List.mem_singleton.mp last
    exact .warnings

/-- The order of a chain: warnings come last, and only taint and the handlers for literals are optional
in number. -/
theorem chain_eq (made : builtin.chain p o files = .ok chain) : ∃ config tainting extras,
    chain = [.timer, .entries (Entries.ofOptions p o), .initializers {},
        .threads { methods := ThreadMethods.ofProgram p o }, .natives (Natives.ofProgram p), .exceptions {}]
      ++ (if o.reflection then [.reflection (Reflection.ofProgram p)] else [])
      ++ tainting ++ extras ++ [.warnings {}] ∧
    (∀ h ∈ tainting, o.taintConfig.isSome = true ∧ h = .taint (Taint.ofConfig config)) ∧
    o.plugins.mapM builtin.create = .ok extras := by
  unfold Registry.chain at made
  cases extras : o.plugins.mapM builtin.create with
  | error e =>
    cases tainted : o.taintConfig.isSome <;> cases tainting : taintHandler p o files <;>
      simp [tainted, tainting, extras, bind, Except.bind, pure, Except.pure, throw, throwThe,
        MonadExceptOf.throw] at made
  | ok more =>
    cases tainted : o.taintConfig.isSome with
    | false =>
      simp only [tainted, extras, Bool.false_eq_true, if_false, bind, Except.bind, pure,
        Except.pure] at made
      cases made
      exact ⟨{}, [], more, rfl, List.forall_mem_nil _, rfl⟩
    | true =>
      cases tainting : taintHandler p o files with
      | error e =>
        simp [tainted, tainting, bind, Except.bind, throw, throwThe, MonadExceptOf.throw] at made
      | ok h =>
        simp only [tainted, tainting, extras, if_true, bind, Except.bind, pure, Except.pure] at made
        cases made
        obtain ⟨config, rfl⟩ := taintHandler_ok tainting
        exact ⟨config, [.taint (Taint.ofConfig config)], more, rfl,
          List.forall_mem_singleton.mpr ⟨rfl, rfl⟩, rfl⟩

theorem chain_makes (made : builtin.chain p o files = .ok chain) :
    ∃ config, ∀ h ∈ chain, Makes p o config h := by
  obtain ⟨config, tainting, extras, rfl, given, added⟩ := chain_eq made
  refine ⟨config, makes_chain (fun h member => ?_) added⟩
  obtain ⟨tainted, rfl⟩ := given h member
  exact .taint tainted

theorem mentions_current {m : MethodId} {v : VarId}
    (current : (ThreadMethods.ofProgram p o).current = some (m, v)) : p.Mentions m v := by
  obtain ⟨n, _, found⟩ := Option.bind_eq_some_iff.mp current
  obtain ⟨w, returns, same⟩ := Option.map_eq_some_iff.mp found
  cases same
  obtain ⟨body, code, head⟩ := Option.bind_eq_some_iff.mp returns
  refine ⟨body, code, List.mem_append_left _ (List.mem_append_left _ (List.mem_append_right _ ?_))⟩
  exact List.mem_of_mem_head? head

theorem threads_remember (heap : Heap) (satisfied : (ThreadMethods.ofProgram p o).Satisfied p rules holds) :
    Threads.Remembers p rules holds { heap } { methods := ThreadMethods.ofProgram p o } where
  satisfied := satisfied
  started := fun o member => absurd member (ObjSet.not_mem_empty o)
  main := fun _ made => by cases made
  result := fun _ _ => mentions_current
  asked := fun _ _ _ => List.forall_mem_nil _

theorem Makes.remembers (made : Makes p o config h) (heap : Heap) (satisfied : h.Satisfied p sel rules holds) :
    h.Remembers p sel rules holds { heap } := by
  cases made with
  | timer => trivial
  | entries => exact satisfied
  | initializers => exact satisfied
  | threads => exact threads_remember heap satisfied
  | natives => exact ⟨satisfied, List.forall_mem_nil _, rfl⟩
  | exceptions => exact ⟨satisfied, List.forall_mem_nil _, List.forall_mem_nil _, List.forall_mem_nil _⟩
  | reflection | nulls | numbers => exact ⟨satisfied, List.forall_mem_nil _⟩
  | taint _ => exact satisfied.elim
  | warnings => trivial

/-- Facts that have all points and methods, the calls of models and what entry points give satisfy the handlers. -/
theorem Makes.satisfied_of {holds : Fact → Prop} (made : Makes p o config h) (untainted : ∀ s, h ≠ .taint s)
    (points : ∀ x i, holds (.points x i)) (reached : ∀ c m, holds (.reached c m))
    (calls : ∀ site call c d m, p.invoke? site = some call → holds (.called .other c site d m))
    (gives : ∀ entry x, EntryPoint.Gives p entry x → holds x) : h.Satisfied p sel rules holds := by
  cases made with
  | timer | warnings => trivial
  | taint _ => exact absurd rfl (untainted _)
  | reflection =>
    exact ⟨fun _ _ _ _ _ _ _ _ _ _ => ⟨points _ _, fun _ _ _ _ => reached _ _⟩,
      fun _ _ _ _ _ _ _ _ _ _ _ _ => points _ _,
      fun _ models _ _ _ _ _ _ _ _ _ _ _ _ => ⟨calls _ _ _ _ _ models.invoke?, fun _ _ => points _ _⟩,
      fun _ _ _ _ _ _ _ _ _ _ _ _ => points _ _, fun _ _ _ _ _ _ _ => points _ _⟩
  | initializers => exact fun _ _ _ _ _ _ _ => reached _ _
  | exceptions => exact fun _ _ _ _ _ _ => points _ _
  | nulls | numbers => exact fun _ _ _ _ _ _ _ _ _ => points _ _
  | entries => exact ⟨fun _ _ _ given => gives _ _ given, fun _ _ => reached _ _⟩
  | threads =>
    exact ⟨fun _ _ _ _ given => gives _ _ given, fun _ _ _ _ _ _ => points _ _,
      fun _ _ _ _ _ _ _ _ _ _ => points _ _⟩
  | natives => constructor <;> intros <;> exact points _ _

theorem Makes.satisfied_all (made : Makes p o config h) (untainted : ∀ s, h ≠ .taint s) :
    h.Satisfied p sel rules fun _ => True :=
  made.satisfied_of untainted (fun _ _ => trivial) (fun _ _ => trivial) (fun _ _ _ _ _ _ => trivial)
    fun _ _ _ => trivial

theorem chain_remembers (untainted : o.taintConfig = none) (heap : Heap)
    (made : builtin.chain p o files = .ok chain) : chain.Remembers p sel rules (fun _ => True) { heap } := by
  obtain ⟨config, makes⟩ := chain_makes made
  have plain : ∀ h ∈ chain, ∀ s, h ≠ .taint s := by
    rintro _ member s rfl
    cases makes _ member with
    | taint tainted => simp [untainted] at tainted
  exact fun h member => (makes h member).remembers heap ((makes h member).satisfied_all (plain h member))

theorem solved_closed (made : builtin.chain p o files = .ok chain) (untainted : o.taintConfig = none)
    (declared : p.Scoped) {fuel : Nat} {s : State Chain}
    (solved : Solver.solve ⟨p, sel, Chain.handlers p⟩ fuel (Heap.ofProgram p o.mergeStrings) chain = some s) :
    s.Spelled ∧ Closed (Rule p sel (HeapRules.ofProgram p o.mergeStrings)) s.Found := by
  have starts := Chain.starts sel declared (chain_remembers untainted (Heap.ofProgram p o.mergeStrings) made)
  have result := Solver.solve_some solved
  have rests := result.rests starts
  exact ⟨rests.toLawful.spelled, (result.settles starts).closed rests fun _ _ _ injected => injected.elim⟩

end Registry

theorem Analysis.solve_eq {a : Analysis} {o : Options} {sel : Selector} {r : Result}
    (registered : a.registry = Registry.builtin) (solved : a.solve o sel = .ok r) :
    ∃ chain t, Registry.builtin.chain a.program o a.files = .ok chain ∧
      Solver.solve ⟨a.program, sel, Chain.handlers a.program⟩ a.stepLimit
        (Heap.ofProgram a.program o.mergeStrings) chain = some t ∧
      r = ⟨a.program, sel.name, t.toFacts, t.stats, t.handler⟩ := by
  unfold solve at solved
  rw [registered] at solved
  cases made : Registry.builtin.chain a.program o a.files with
  | error e => simp [made, bind, Except.bind] at solved
  | ok chain =>
    simp only [made, bind, Except.bind] at solved
    split at solved
    · next t found =>
      cases solved
      exact ⟨chain, t, rfl, found, rfl⟩
    · cases solved

/-- What a run with the built-in handlers finds can be told by names and is closed under the inclusion
rules, whatever the selector and the options are, as long as nothing is tainted. -/
theorem Analysis.solve_closed {a : Analysis} {o : Options} {selector : Selector} {r : Result}
    (registered : a.registry = Registry.builtin) (untainted : o.taintConfig = none)
    (declared : a.program.Scoped) (solved : a.solve o selector = .ok r) :
    r.facts.Spelled ∧
      Closed (Rule a.program selector (HeapRules.ofProgram a.program o.mergeStrings)) r.facts.Found := by
  obtain ⟨chain, t, made, run, rfl⟩ := Analysis.solve_eq registered solved
  exact Registry.solved_closed made untainted declared run

def boxAnalysis : Except AnalysisError Result :=
  Analysis.solve { program := boxes, files := { root := "" }, stepLimit := 100 }
    { implicitEntries := false, plugins := ["null-handler"] } (.limited (.callSite 1))

theorem Analysis.boxes_closed :
    ∃ r, boxAnalysis = .ok r ∧ r.facts.Spelled ∧
      Closed (Rule boxes (.limited (.callSite 1)) (HeapRules.ofProgram boxes true)) r.facts.Found := by
  have ends : boxAnalysis.isOk = true := by decide +kernel
  cases solved : boxAnalysis with
  | error e => simp [solved, Except.isOk, Except.toBool] at ends
  | ok r => exact ⟨r, rfl, Analysis.solve_closed rfl rfl (by decide) solved⟩

end PointsTo
