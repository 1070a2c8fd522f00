import PointsTo.Proofs.Escape
import PointsTo.Proofs.World

/-!
Handlers that stay in a world. What a handler makes is drawn from finitely many objects: those of its
configuration, of the statements it models and of the types the world knows. What it remembers are
contexts and objects that it was told of.
-/
namespace PointsTo

namespace World

variable {p : Program} {sel : Selector} {rules : HeapRules} {W : World p sel rules} {c : ContextId} {v : VarId}
  {o : Obj}

theorem hasRef_plain (member : W.Foreign o) : W.HasRef (.plain o) :=
  ⟨W.hasContext_empty, member⟩

theorem takes_pointsTo {pointer : PointerRef} {objs : List ObjRef} (has : W.HasPointer pointer)
    (refs : ∀ r ∈ objs, W.HasRef r) : ∀ d ∈ Command.pointsTo pointer objs, W.Takes d :=
  Command.forall_pointsTo ⟨has, refs⟩

theorem takes_varObj (known : W.HasContext c) (var : v ∈ p.allVars) (member : W.Foreign o) :
    W.Takes (Command.varObj c v o) :=
  ⟨⟨known, var⟩, fun _ listed => List.mem_singleton.mp listed ▸ hasRef_plain member⟩

theorem takes_method {m : MethodId} (declared : m ∈ p.allMethods) :
    W.Takes (.addEntryPoint { method := m }) :=
  ⟨declared, List.forall_mem_nil _, List.forall_mem_nil _, List.forall_mem_nil _, List.forall_mem_nil _⟩

end World

namespace Facts.Confined

variable {p : Program} {sel : Selector} {rules : HeapRules} {W : World p sel rules} {f : Facts} {c : ContextId}
  {v : VarId}

theorem context (confined : f.Confined W) {id : CsMethodId} {m : MethodId}
    (known : f.elements.method? id = some (c, m)) : W.HasContext c :=
  (W.mem_csMethods.mp (confined.methods id _ known)).1

theorem site (confined : f.Confined W) {id : CsSiteId} {site : StmtRef}
    (known : f.elements.site? id = some (c, site)) : W.HasContext c :=
  (W.mem_csSites.mp (confined.sites id _ known)).1

theorem var (confined : f.Confined W) {q : PointerId} (known : f.elements.pointer? q = some (.var c v)) :
    W.HasContext c ∧ v ∈ p.allVars :=
  W.var_mem.mp (confined.pointers q _ known)

theorem obj (confined : f.Confined W) {o : CsObjId} {obj : Obj} (known : f.obj? o = some obj) :
    obj ∈ W.objs := by
  obtain ⟨x, _, found⟩ := Option.bind_eq_some_iff.mp known
  exact confined.objects _ _ found

theorem varPts (confined : f.Confined W) {pts : ObjSet} (found : f.varPts? c v = some pts) :
    ∀ o ∈ pts, W.HasObj o := by
  intro o member
  obtain ⟨q, _, set⟩ := Option.bind_eq_some_iff.mp found
  exact confined.held q o ⟨pts, set, member⟩

end Facts.Confined

namespace Reaction

variable {p : Program} {sel : Selector} {rules : HeapRules} {W : World p sel rules} {σ : Type u} {τ : Type v}
  {good : σ → Prop} {s : σ} {r : Reaction σ}

theorem confined_silent (stays : good s) : Confined W good { state := s } :=
  ⟨stays, List.forall_mem_nil _, List.forall_mem_nil _⟩

theorem Meets.confined (meets : r.Meets good W.Foreign W.Takes) : r.Confined W good :=
  ⟨meets.state, meets.created, meets.commands⟩

theorem Confined.meets (confined : r.Confined W good) : r.Meets good W.Foreign W.Takes :=
  ⟨confined.state, confined.created, confined.commands⟩

theorem Confined.map {good' : τ → Prop} (confined : r.Confined W good) (g : σ → τ)
    (carries : ∀ s, good s → good' (g s)) : (r.map g).Confined W good' :=
  ⟨carries _ confined.state, confined.created, confined.commands⟩

end Reaction

def Event.Within {p : Program} {sel : Selector} {rules : HeapRules} (W : World p sel rules) (e : Event) :
    Prop :=
  ∀ q delta, e = .arrived q delta → ∀ o ∈ delta, W.HasObj o

section

variable {p : Program} {sel : Selector} {rules : HeapRules} {W : World p sel rules} {f : Facts}
  {e : Event}

namespace Entries

structure Stays (W : World p sel rules) (s : Entries) : Prop where
  entries : ∀ m ∈ s.entries, m ∈ p.allMethods ∧ ∀ o ∈ EntryPoint.mockedObjs p m, W.Foreign o
  implicit : ∀ m ∈ s.implicit, m ∈ p.allMethods

theorem hasEntry_mocked {m : MethodId} (declared : m ∈ p.allMethods)
    (members : ∀ o ∈ EntryPoint.mockedObjs p m, W.Foreign o) : W.HasEntry (EntryPoint.mocked p m) := by
  have param : ∀ q ∈ MockParam.ofMethod p m, W.Foreign q.obj ∧ ∀ e ∈ q.elem, W.Foreign e := by
    intro q listed
    have inside : ∀ o ∈ q.obj :: q.elem.toList, W.Foreign o := fun o member =>
      members o (List.mem_append_right _ (List.mem_flatMap.mpr ⟨q, listed, member⟩))
    exact ⟨inside _ List.mem_cons_self,
      fun e elem => inside e (List.mem_cons_of_mem _ (Option.mem_toList.mpr elem))⟩
  refine ⟨declared, fun o member => members o (List.mem_append_left _ member), fun x member => ?_,
    List.forall_mem_nil _, fun x member => ?_⟩
  · obtain ⟨q, listed, rfl⟩ := List.mem_map.mp member
    exact (param q listed).1
  · obtain ⟨q, listed, found⟩ := List.mem_filterMap.mp member
    obtain ⟨e, elem, rfl⟩ := Option.map_eq_some_iff.mp found
    exact ⟨(param q listed).1, (param q listed).2 e elem⟩

theorem react_confined {s : Entries} (stays : s.Stays W) (e : Event) :
    (s.react p e).Confined W (Stays W) := by
  cases e with
  | started =>
    refine ⟨stays, fun o member => ?_, fun d member => ?_⟩
    · obtain ⟨m, listed, made⟩ := List.mem_flatMap.mp member
      exact (stays.entries m listed).2 o made
    · rcases List.mem_append.mp member with entry | entry
      · obtain ⟨m, listed, rfl⟩ := List.mem_map.mp entry
        exact hasEntry_mocked (stays.entries m listed).1 (stays.entries m listed).2
      · obtain ⟨m, listed, rfl⟩ := List.mem_map.mp entry
        exact World.takes_method (stays.implicit m listed)
  | _ => exact Reaction.confined_silent stays

end Entries

namespace Initialized

theorem initializeAll_known {t : Initialized} {classes : List ClassId} {m : MethodId}
    (member : m ∈ (t.initializeAll p classes).2) : m ∈ p.allMethods := by
  obtain ⟨c, _, initializes⟩ := initializeAll_mem member
  obtain ⟨d, _, declares⟩ := mem_initializersOf.mp initializes
  exact Program.declared?_mem declares

theorem react_confined (t : Initialized) (e : Event) : (t.react p e).Confined W fun _ => True := by
  cases e with
  | methodReached m =>
    refine ⟨trivial, List.forall_mem_nil _, fun d member => ?_⟩
    obtain ⟨n, listed, rfl⟩ := List.mem_map.mp member
    exact World.takes_method (initializeAll_known listed)
  | _ => exact Reaction.confined_silent trivial

end Initialized

namespace Threads

variable {s : Threads}

structure Stays (W : World p sel rules) (s : Threads) : Prop where
  objs : ∀ o ∈ [s.methods.systemGroup, s.methods.mainGroup, rules.constant (.str "main"),
    s.methods.mainThread], W.Foreign o
  inits : ∀ init ∈ [s.methods.systemGroupInit, s.methods.mainGroupInit, s.methods.threadInit],
    ∀ m ∈ init, m ∈ p.allMethods
  result : ∀ m v, s.methods.current = some (m, v) → v ∈ p.allVars
  started : ∀ o ∈ s.started, W.HasObj o
  main : ∀ o ∈ s.mainThread, W.Foreign o
  asked : ∀ c ∈ s.askedIn, W.HasContext c

theorem start_confined (stays : s.Stays W) : (s.start rules).Confined W (Stays W) := by
  have objs := stays.objs
  have inits := stays.inits
  simp only [List.forall_mem_cons] at objs inits
  obtain ⟨system, main, name, thread, _⟩ := objs
  refine ⟨{ stays with main := fun o same => Option.some.inj same ▸ thread }, stays.objs, fun d member => ?_⟩
  simp only [start, List.mem_append, List.mem_map, Option.mem_toList] at member
  rcases member with (⟨m, init, rfl⟩ | ⟨m, init, rfl⟩) | ⟨m, init, rfl⟩
  · exact ⟨inits.1 m init, by simpa using system, by simp, by simp, by simp⟩
  · exact ⟨inits.2.1 m init, by simpa using main, by simpa using ⟨system, name⟩, by simp, by simp⟩
  · exact ⟨inits.2.2.1 m init, by simpa using thread, by simpa using ⟨main, name⟩, by simp, by simp⟩

theorem launch_confined (stays : s.Stays W) {delta : ObjSet} (inside : ∀ o ∈ delta, W.HasObj o) :
    (s.launch delta).Confined W (Stays W) := by
  refine ⟨{ stays with started := fun o member => ?_ }, List.forall_mem_nil _, fun d member => ?_⟩
  · rcases ObjSet.mem_union_fst.mp member with old | new
    · exact stays.started o old
    · exact inside o new
  · unfold launch at member
    cases current : s.methods.current with
    | none => simp [current] at member
    | some pair =>
      simp only [current, List.mem_flatMap] at member
      obtain ⟨c, asked, member⟩ := member
      have has : W.HasPointer (.var c pair.2) := ⟨stays.asked c asked, stays.result _ _ current⟩
      refine World.takes_pointsTo has (fun r listed => ?_) d member
      obtain ⟨o, fresh, rfl⟩ := List.mem_map.mp listed
      exact inside o (ObjSet.mem_union_snd.mp fresh).1

theorem ask_confined (stays : s.Stays W) {c : ContextId} {v : VarId} (known : W.HasContext c)
    (var : v ∈ p.allVars) : (s.ask c v).Confined W (Stays W) := by
  refine ⟨{ stays with asked := ?_ }, List.forall_mem_nil _, World.takes_pointsTo ⟨known, var⟩ ?_⟩
  · intro d member
    simp only [ask] at member
    split at member
    · exact stays.asked d member
    · rcases List.mem_append.mp member with old | new
      · exact stays.asked d old
      · exact List.mem_singleton.mp new ▸ known
  · intro r listed
    rcases List.mem_append.mp listed with main | started
    · obtain ⟨o, same, rfl⟩ := Option.map_eq_some_iff.mp (Option.mem_toList.mp main)
      exact World.hasRef_plain (stays.main o same)
    · obtain ⟨o, member, rfl⟩ := List.mem_map.mp started
      exact stays.started o member

theorem react_confined (stays : s.Stays W) (confined : f.Confined W) (within : e.Within W) :
    (s.react f e).Confined W (Stays W) := by
  refine Reaction.Meets.confined (react_meets stays (fun _ => ?_) (fun q delta _ _ event _ _ => ?_)
    fun id c m v current known => ?_)
  · rw [confined.rules]
    exact (start_confined stays).meets
  · exact (launch_confined stays (within q delta event)).meets
  · exact (ask_confined stays (confined.context known) (stays.result _ _ current)).meets

end Threads

namespace Natives

variable {s : Natives} {c : ModeledCall NativeModel}

structure Stays (W : World p sel rules) (s : Natives) : Prop where
  recorded : s.models.Remembers p
  copies : ∀ c : ModeledCall NativeModel, p.invoke? c.site = some c.call →
    ∀ o, copyObj? p c = some o → W.Foreign o

theorem Asks.taken {d : Command} (asks : Asks p f e c d) (stays : s.Stays W) (confined : f.Confined W)
    (within : e.Within W) (calls : p.invoke? c.site = some c.call) : W.Takes d := by
  have inside : ∀ {context v o}, Present f e context v o → W.HasRef (.interned o) := by
    rintro context v o (⟨pts, held, member⟩ | ⟨q, delta, event, _, new⟩)
    · exact confined.varPts held o member
    · exact within q delta event o new
  cases asks with
  | copy known _ answer made =>
    exact World.takes_varObj (confined.context known) (Program.mem_allVars (Program.mentions_result calls answer))
      (stays.copies c calls _ made)
  | clone known _ on answer =>
    have context := confined.context known
    exact ⟨trivial, ⟨context, Program.mem_allVars (Program.mentions_base calls on)⟩, context,
      Program.mem_allVars (Program.mentions_result calls answer)⟩
  | copied _ _ there made =>
    exact ⟨(fun _ none => nomatch none), inside there, World.hasRef_plain (stays.copies c calls _ made)⟩
  | crossed _ _ _ there there' => exact ⟨(fun _ none => nomatch none), inside there, inside there'⟩

theorem react_confined (stays : s.Stays W) (confined : f.Confined W) (within : e.Within W) :
    (s.react p f e).Confined W (Stays W) :=
  have calls := fun c recorded => (stays.recorded c recorded).invoke?
  Reaction.Meets.confined (react_meets stays (fun m => ⟨stays.recorded.recordMethod m, stays.copies⟩)
    (fun c recorded => stays.copies c (calls c recorded))
    fun c recorded _ asks => asks.taken stays confined within (calls c recorded))

end Natives

namespace Exceptions

variable {s : Exceptions} {throws : List Throw}

def Stays (W : World p sel rules) (s : Exceptions) : Prop := ∀ x ∈ s.uncaught, W.HasObj x.2

theorem throwOne_confined (stays : s.Stays W) (confined : f.Confined W) {t : Throw}
    (inside : ∀ o ∈ t.objs, W.HasObj o) :
    (throwOne p f s t).1.Stays W ∧ (∀ d ∈ (throwOne p f s t).2.1, W.Takes d) ∧
      ∀ u ∈ (throwOne p f s t).2.2, ∀ o ∈ u.objs, W.HasObj o := by
  cases known : f.elements.method? t.method with
  | none =>
    rw [throwOne_unknown known]
    exact ⟨stays, List.forall_mem_nil _, List.forall_mem_nil _⟩
  | some method =>
    have throws := throwOne_throws (p := p) (s := s) known
    refine ⟨fun x member => ?_, fun d asked => ?_, fun u listed => ?_⟩
    · rw [throws.uncaught] at member
      rcases List.mem_append.mp member with old | added
      · exact stays x old
      · obtain ⟨o, leaves, rfl⟩ := List.mem_map.mp added
        exact inside o (throws.among o leaves)
    · obtain ⟨v, os, rfl, filled, only⟩ := throws.only d asked
      have var : v ∈ p.allVars := by
        obtain ⟨o, first⟩ := List.exists_mem_of_ne_nil os filled
        obtain ⟨_, h, takes, rfl⟩ := only o first
        exact Program.mem_allVars (mentions_taker takes)
      refine ⟨⟨confined.context known, var⟩, fun r ref => ?_⟩
      obtain ⟨o, caught, rfl⟩ := List.mem_map.mp ref
      exact inside o (mem_fresh.mp (only o caught).1).1
    · obtain ⟨_, _, _, objs, _⟩ := mem_callers.mp (throws.caller listed)
      rw [objs]
      exact fun o leaves => inside o (throws.among o leaves)

theorem Stays.escapedFrom (stays : s.Stays W) (m : CsMethodId) : ∀ o ∈ s.escapedFrom m, W.HasObj o :=
  fun _ listed => stays _ (mem_escapedFrom.mp listed)

theorem react_confined (stays : s.Stays W) (confined : f.Confined W) (within : e.Within W) :
    (s.react p f e).Confined W (Stays W) := by
  refine Reaction.Meets.confined (react_meets
    (fun _ _ stays inside => throwOne_confined stays confined inside) stays (fun _ _ _ => stays)
    (fun q delta c v event _ t listed => ?_) fun edge _ _ _ _ _ _ => stays.escapedFrom edge.callee)
  obtain ⟨x, _, found⟩ := List.mem_filterMap.mp listed
  obtain ⟨m, _, rfl⟩ := Option.map_eq_some_iff.mp found
  exact within q delta event

end Exceptions

namespace Reflection

variable {s : Reflection} {c : ModeledCall ReflectionModel} {context : ContextId} {result : VarId}
  {objs : List Obj}

structure Stays (W : World p sel rules) (s : Reflection) : Prop where
  recorded : s.models.Remembers p
  unknown : ∀ site call, p.invoke? site = some call →
    W.Foreign (unknownObj site s.classTy) ∧ W.Foreign (unknownObj site s.objectTy)
  named : ∀ name c, p.classByName? name = some c → W.Foreign (rules.constant (.cls (.cls c)))
  classes : ∀ o ∈ W.objs, ∀ k, classObj? rules o = some k → W.Foreign k
  instances : ∀ site call c decl, p.invoke? site = some call → p.classes[c]? = some decl →
    W.Foreign (Obj.mockIn .reflective (.stmt site) (.cls c) site.method)

theorem lookUp_confined (stays : s.Stays W) (confined : f.Confined W) (calls : p.invoke? c.site = some c.call)
    (known : W.HasContext context) (var : result ∈ p.allVars) (names : List Obj) :
    (s.lookUp p f context c result names).Confined W (Stays W) := by
  have made : ∀ o ∈ (s.lookUp p f context c result names).created, W.Foreign o := by
    intro o member
    simp only [lookUp, List.map_map, List.mem_map, Function.comp_apply] at member
    obtain ⟨name, _, rfl⟩ := member
    split
    · next cls named =>
      rw [confined.rules]
      unfold namedClass? at named
      split at named
      · exact stays.named _ cls named
      · cases named
    · exact (stays.unknown c.site c.call calls).1
  refine ⟨{ stays with }, made, List.forall_mem_append.mpr ⟨fun d member => ?_, ?_⟩⟩
  · obtain ⟨m, listed, rfl⟩ := List.mem_map.mp member
    exact World.takes_method (Initialized.initializeAll_known listed)
  · refine World.takes_pointsTo ⟨known, var⟩ fun r listed => ?_
    obtain ⟨o, member, rfl⟩ := List.mem_map.mp listed
    exact World.hasRef_plain (made o member)

theorem instantiable?_known {o : Obj} {c : ClassId} (makes : instantiable? p o = some c) :
    ∃ decl, p.classes[c]? = some decl := by
  unfold instantiable? at makes
  split at makes
  · next d _ =>
    split at makes
    · next decl known =>
      split at makes
      · cases makes
      · cases makes
        exact ⟨decl, known⟩
    · cases makes
  · cases makes

theorem takes_instantiate (stays : s.Stays W) (calls : p.invoke? c.site = some c.call)
    (known : W.HasContext context) (var : result ∈ p.allVars) {cls : ClassId} {decl : ClassDecl}
    (declared : p.classes[cls]? = some decl) :
    W.Foreign (instantiate p context c result cls).1 ∧
      ∀ d ∈ (instantiate p context c result cls).2, W.Takes d := by
  have member := stays.instances c.site c.call cls decl calls declared
  refine ⟨member, List.forall_mem_cons.mpr ⟨World.takes_varObj known var member, fun d listed => ?_⟩⟩
  obtain ⟨init, found, rfl⟩ := List.mem_map.mp listed
  refine ⟨known, Program.mem_allSites (Program.stmt?_of_invoke? calls),
    Program.declared?_mem (Option.mem_toList.mp found), fun r same => ?_⟩
  exact Option.some.inj same ▸ World.hasRef_plain member

theorem Updates.confined {v : VarId} {r : Reaction Reflection} (updates : Updates p f s context v objs c r)
    (stays : s.Stays W) (confined : f.Confined W) (calls : p.invoke? c.site = some c.call)
    (known : W.HasContext context) (members : ∀ o ∈ objs, o ∈ W.objs) : r.Confined W (Stays W) := by
  have var : ∀ {result}, c.call.result = some result → result ∈ p.allVars :=
    fun answer => Program.mem_allVars (Program.mentions_result calls answer)
  cases updates with
  | looks answer => exact lookUp_confined stays confined calls known (var answer) objs
  | @makes result answer =>
    have made : ∀ x ∈ (objs.filterMap (instantiable? p)).map (instantiate p context c result),
        W.Foreign x.1 ∧ ∀ d ∈ x.2, W.Takes d := by
      intro x listed
      obtain ⟨cls, found, rfl⟩ := List.mem_map.mp listed
      obtain ⟨o, _, makes⟩ := List.mem_filterMap.mp found
      obtain ⟨decl, declared⟩ := instantiable?_known makes
      exact takes_instantiate stays calls known (var answer) declared
    refine ⟨stays, fun o member => ?_, fun d member => ?_⟩
    · obtain ⟨x, listed, rfl⟩ := List.mem_map.mp member
      exact (made x listed).1
    · obtain ⟨x, listed, asked⟩ := List.mem_flatMap.mp member
      exact (made x listed).2 d asked
  | classes answer =>
    have made : ∀ k ∈ objs.filterMap (classObj? f.heap.rules), W.Foreign k := by
      intro k listed
      obtain ⟨o, member, found⟩ := List.mem_filterMap.mp listed
      rw [confined.rules] at found
      exact stays.classes o (members o member) k found
    refine ⟨stays, made, World.takes_pointsTo ⟨known, var answer⟩ fun r listed => ?_⟩
    obtain ⟨o, member, rfl⟩ := List.mem_map.mp listed
    exact World.hasRef_plain (made o member)
  | idle => exact Reaction.confined_silent stays

theorem react_confined (stays : s.Stays W) (confined : f.Confined W) (e : Event) :
    (s.react p f e).Confined W (Stays W) := by
  refine Reaction.Meets.confined (react_meets stays
    (fun m _ => { stays with recorded := stays.recorded.recordMethod m }) ?_ ?_)
  · intro id context c result known recorded _ answer
    have calls := (stays.recorded c recorded).invoke?
    have made := (stays.unknown c.site c.call calls).2
    have var := Program.mem_allVars (Program.mentions_result calls answer)
    exact ⟨made, World.takes_varObj (confined.context known) var made⟩
  · rintro q delta context v u initialized c r rfl known good rfl watched updates
    refine (updates.confined good confined (stays.recorded.watched watched).1.invoke? (confined.var known).1
      fun o listed => ?_).meets
    obtain ⟨id, _, found⟩ := List.mem_filterMap.mp listed
    exact confined.obj found

end Reflection

namespace LiteralAssigns

structure Stays (W : World p sel rules) (obj? : VarId → Literal → Option Obj) (s : LiteralAssigns) :
    Prop where
  assigns : ∀ x ∈ s.assigns, ∃ site, p.stmt? site = some (.literal x.2.1 x.2.2)
  objs : ∀ site v value o, p.stmt? site = some (.literal v value) → obj? v value = some o → W.Foreign o

theorem react_confined {obj? : VarId → Literal → Option Obj} {s : LiteralAssigns}
    (stays : s.Stays W obj?) (confined : f.Confined W) (accepts : Literal → Bool) (e : Event) :
    (react p accepts obj? s f e).Confined W (Stays W obj?) := by
  refine Reaction.Meets.confined (react_meets stays (fun site => { stays with assigns := ?_ })
    fun id c m v value o known assigned made => ?_)
  · unfold record
    split
    · next v value known =>
      split
      · exact List.forall_mem_append.mpr ⟨stays.assigns, List.forall_mem_singleton.mpr ⟨site, known⟩⟩
      · exact stays.assigns
    · exact stays.assigns
  · obtain ⟨site, stmt⟩ := stays.assigns _ assigned
    have member := stays.objs site v value o stmt made
    have var := Program.mem_allVars (Program.mentions_of_stmt stmt (Or.inr rfl))
    exact ⟨member, World.takes_varObj (confined.context known) var member⟩

end LiteralAssigns

end

end PointsTo
