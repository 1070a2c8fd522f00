import PointsTo.Proofs.Closure
import PointsTo.Proofs.Handling
import PointsTo.Proofs.Reacting

/-!
The handlers of every run keep to the contract of handlers, under every law that satisfies them: what
they remember is so, and they ask for nothing but what the law has.
-/
namespace PointsTo

/-- The law that consists of a set of facts. Of the handlers, only models of native methods make edges. -/
def Law.only (p : Program) (holds : Fact → Prop) : Law := { holds, edges := Natives.Flow p holds }

namespace Facts

variable {f g : Facts} {p : Program} {sel : Selector} {holds : Fact → Prop} {c : ContextId} {m : MethodId}
  {v : VarId} {o : Obj} {q : PointerId} {objs : List ObjRef}

def Suits (f : Facts) (holds : Fact → Prop) (c : ContextId) (v : VarId) (r : ObjRef) : Prop :=
  ∃ frame i, f.FrameOf c frame ∧ f.ObjRefIs r i ∧ holds (.points (.var frame v) i)

theorem Extends.suits (grown : f.Extends g) {r : ObjRef} (suits : f.Suits holds c v r) :
    g.Suits holds c v r := by
  obtain ⟨frame, i, named, is, inLaw⟩ := suits
  exact ⟨frame, i, grown.frameOf named, grown.objRefIs is, inLaw⟩

theorem objRefIs_plain (f : Facts) (o : Obj) : f.ObjRefIs (.plain o) ⟨[], o⟩ := ⟨f.frameOf_empty, rfl⟩

theorem suits_plain {frame : Frame} (named : f.FrameOf c frame) (inLaw : holds (.points (.var frame v) ⟨[], o⟩)) :
    f.Suits holds c v (.plain o) :=
  ⟨frame, _, named, f.objRefIs_plain o, inLaw⟩

/-- The variable belongs to a method that is known in the context. -/
def Owns (f : Facts) (p : Program) (c : ContextId) (v : VarId) : Prop :=
  ∃ m, f.Interned c m ∧ p.Mentions m v

theorem Sane.reached (sane : f.Sane p (Law.only p holds)) (known : f.Interned c m) :
    ∃ frame, f.FrameOf c frame ∧ holds (.reached frame m) :=
  known.elim fun id found => sane.methods id c m found

theorem Owns.interned (owns : f.Owns p c v) (declared : p.Scoped) (mentions : p.Mentions m v) :
    f.Interned c m := by
  obtain ⟨n, known, mentions'⟩ := owns
  rw [declared.same mentions mentions']
  exact known

theorem placed_only (placed : f.Placed (Law.only p holds) c m) : f.Interned c m :=
  placed.elim (fun known => known) fun ⟨_, _, excused⟩ => excused.elim

section

variable (sane : f.Sane p (Law.only p holds))

include sane

theorem Sane.interned (known : f.elements.pointer? q = some (.var c v)) (mentions : p.Mentions m v) :
    f.Interned c m :=
  placed_only ((sane.vars q c v known).2 m mentions)

theorem Sane.suits {o : CsObjId} (known : f.elements.pointer? q = some (.var c v)) (held : f.elements.Holds q o) :
    f.Suits holds c v (.interned o) := by
  obtain ⟨x, i, ⟨ptr, found, named⟩, item, inLaw⟩ := sane.held q o held
  cases Option.some.inj (known.symm.trans found)
  cases x with
  | var frame w =>
    obtain ⟨named, rfl⟩ := named
    exact ⟨frame, i, named, item, inLaw⟩
  | _ => exact named.elim

theorem Sane.suits_held {pts : ObjSet} (found : f.varPts? c v = some pts) :
    ∀ o ∈ pts, f.Suits holds c v (.interned o) := by
  intro o member
  obtain ⟨q, place, set⟩ := Option.bind_eq_some_iff.mp found
  exact sane.suits (Table.find?_eq_some_iff.mp place) ⟨pts, set, member⟩

theorem Sane.permits_points (declared : p.Scoped) (owns : f.Owns p c v) (suit : ∀ r ∈ objs, f.Suits holds c v r) :
    f.Permits p sel (Law.only p holds) (.addPointsTo (.var c v) objs) := by
  obtain ⟨n, known, _⟩ := id owns
  obtain ⟨frame, named, _⟩ := sane.reached known
  refine ⟨.var frame v, ⟨named, rfl⟩, fun r member => ?_, fun c v same => Or.inl fun m mentions => ?_⟩
  · obtain ⟨frame', i, named', is, inLaw⟩ := suit r member
    obtain rfl := named.unique named'
    exact ⟨i, is, inLaw⟩
  · cases same
    exact owns.interned declared mentions

theorem Sane.permits_pointsTo (declared : p.Scoped) (owns : f.Owns p c v)
    (suit : ∀ r ∈ objs, f.Suits holds c v r) :
    ∀ d ∈ Command.pointsTo (.var c v) objs, f.Permits p sel (Law.only p holds) d :=
  Command.forall_pointsTo (sane.permits_points declared owns suit)

theorem Sane.permits_varObj (declared : p.Scoped) (owns : f.Owns p c v) (suits : f.Suits holds c v (.plain o)) :
    f.Permits p sel (Law.only p holds) (Command.varObj c v o) :=
  sane.permits_points declared owns fun _ member => List.mem_singleton.mp member ▸ suits

end

theorem permits_method (inLaw : holds (.reached [] m)) :
    f.Permits p sel (Law.only p holds) (.addEntryPoint { method := m }) :=
  fun _ gives => EntryPoint.gives_bare gives ▸ inLaw

theorem permits_elementFlow {origin : String} {site : StmtRef} {source target : ObjRef} {i j : Item}
    (first : f.ObjRefIs source i) (second : f.ObjRefIs target j)
    (moves : ∀ k, holds (.points (.element i) k) → holds (.points (.element j) k))
    (flow : Natives.Flow p holds (.other { origin, key := site.code }) (.element i) (.element j)) :
    f.Permits p sel (Law.only p holds) (Natives.elementFlow origin site source target) := by
  refine ⟨.element i, .element j, first, second, moves, flow, ?_, ?_⟩ <;>
    exact fun _ _ same => PointerRef.noConfusion same

end Facts

/-- An answer that leaves a memory true and asks only for what the law has. -/
structure Reaction.Proper {σ : Type u} (f : Facts) (p : Program) (sel : Selector) (holds : Fact → Prop)
    (good : σ → Prop) (r : Reaction σ) : Prop where
  state : good r.state
  commands : ∀ c ∈ r.commands, f.Permits p sel (Law.only p holds) c

namespace Reaction

variable {σ : Type u} {τ : Type v} {f : Facts} {p : Program} {sel : Selector} {holds : Fact → Prop}
  {good : σ → Prop} {r : Reaction σ}

theorem proper_silent {s : σ} (remembers : good s) : Proper f p sel holds good { state := s } :=
  ⟨remembers, fun _ member => by cases member⟩

theorem Proper.map {good' : τ → Prop} (proper : r.Proper f p sel holds good) (g : σ → τ)
    (carries : ∀ s, good s → good' (g s)) : (r.map g).Proper f p sel holds good' :=
  ⟨carries _ proper.state, proper.commands⟩

theorem Meets.proper (meets : r.Meets good (fun _ => True) (f.Permits p sel (Law.only p holds))) :
    r.Proper f p sel holds good :=
  ⟨meets.state, meets.commands⟩

theorem Proper.meets (proper : r.Proper f p sel holds good) :
    r.Meets good (fun _ => True) (f.Permits p sel (Law.only p holds)) :=
  ⟨proper.state, fun _ _ => trivial, proper.commands⟩

end Reaction

namespace Program

variable {p : Program} {site : StmtRef} {call : Invoke} {v : VarId}

theorem mentions_result (calls : p.invoke? site = some call) (answer : call.result = some v) :
    p.Mentions site.method v :=
  mentions_of_stmt (stmt?_of_invoke? calls) (Or.inr answer)

theorem mentions_base (calls : p.invoke? site = some call) (on : call.base = some v) :
    p.Mentions site.method v :=
  mentions_of_stmt (stmt?_of_invoke? calls) (Or.inl (by simp [Stmt.uses, on]))

theorem mentions_arg (calls : p.invoke? site = some call) (passed : v ∈ call.args) :
    p.Mentions site.method v :=
  mentions_of_stmt (stmt?_of_invoke? calls) (Or.inl (List.mem_append_right _ passed))

theorem mentions_catch {m : MethodId} {index : Nat} {ty : Ty} {h : CatchHandler}
    (takes : catcher? p m index ty = some h) : p.Mentions m h.var := by
  unfold catcher? at takes
  cases code : p.body? m with
  | none => simp [code] at takes
  | some body =>
    rw [code] at takes
    have listed : h ∈ body.handlers := (List.mem_filter.mp (List.mem_of_find?_eq_some takes)).1
    refine ⟨body, code, List.mem_append_left _ (List.mem_append_right _ ?_)⟩
    exact List.mem_map.mpr ⟨h, listed, rfl⟩

end Program

namespace Index

variable {p : Program} {index : Index} {v : VarId}

theorem mentions_callVar? {site : StmtRef} {call : Invoke} (calls : p.invoke? site = some call)
    (found : index.callVar? call = some v) : p.Mentions site.method v := by
  cases index with
  | base => exact Program.mentions_base calls found
  | result => exact Program.mentions_result calls found
  | arg i => exact Program.mentions_arg calls (List.mem_of_getElem? found)

theorem mentions_paramVar? {m : MethodId} {body : Body} (code : p.body? m = some body)
    (found : index.paramVar? body = some v) : p.Mentions m v := by
  cases index with
  | base =>
    have receives : p.this? m = some v := by rw [Program.this?, code]; exact found
    exact Program.mentions_this receives
  | result => cases found
  | arg i => exact Program.mentions_param code (List.mem_of_getElem? found)

end Index

namespace Entries

variable {s : Entries} {f : Facts} {p : Program} {sel : Selector} {holds : Fact → Prop}

theorem react_proper (satisfied : s.Satisfied p holds) (e : Event) :
    (s.react p e).Proper f p sel holds (Satisfied p holds) := by
  cases e with
  | started =>
    refine ⟨satisfied, fun c member => ?_⟩
    rcases List.mem_append.mp member with entry | implicit
    · obtain ⟨m, listed, rfl⟩ := List.mem_map.mp entry
      exact satisfied.entries m listed
    · obtain ⟨m, listed, rfl⟩ := List.mem_map.mp implicit
      exact Facts.permits_method (satisfied.implicit m listed)
  | _ => exact Reaction.proper_silent satisfied

end Entries

namespace Initialized

variable {t : Initialized} {f : Facts} {p : Program} {sel : Selector} {holds : Fact → Prop} {m : MethodId}

theorem mem_initializersOf {c : ClassId} :
    m ∈ initializersOf p c ↔ ∃ d ∈ p.superclasses c, p.declared? d initializerSubsignature = some m :=
  List.mem_filterMap

theorem initializeChain_mem {links : List (ClassId × Option MethodId)} (member : m ∈ (t.initializeChain links).2) :
    ∃ c, (c, some m) ∈ links := by
  induction links generalizing t with
  | nil => cases member
  | cons link rest ih =>
    obtain ⟨c, made⟩ := link
    unfold initializeChain at member
    split at member
    · exact (ih member).imp fun _ later => List.mem_cons_of_mem _ later
    · rcases List.mem_append.mp member with first | later
      · exact ⟨c, Option.mem_toList.mp first ▸ List.mem_cons_self⟩
      · exact (ih later).imp fun _ later => List.mem_cons_of_mem _ later

theorem initializeAll_mem {classes : List ClassId} (member : m ∈ (t.initializeAll p classes).2) :
    ∃ c ∈ classes, m ∈ initializersOf p c := by
  induction classes generalizing t with
  | nil => cases member
  | cons c rest ih =>
    unfold initializeAll at member
    rcases List.mem_append.mp member with first | later
    · unfold require at first
      split at first
      · cases first
      · obtain ⟨d, listed⟩ := initializeChain_mem first
        obtain ⟨e, above, same⟩ := List.mem_map.mp listed
        obtain ⟨rfl, made⟩ := Prod.mk.inj same
        exact ⟨c, List.mem_cons_self,
          mem_initializersOf.mpr ⟨e, List.mem_reverse.mp above, made⟩⟩
    · obtain ⟨d, listed, initializes⟩ := ih later
      exact ⟨d, List.mem_cons_of_mem _ listed, initializes⟩

theorem react_proper (satisfied : Satisfied p holds) (sane : f.Sane p (Law.only p holds)) {e : Event}
    (named : e = .started ∨ e.Named f) :
    (t.react p e).Proper f p sel holds fun _ => Satisfied p holds := by
  cases e with
  | methodReached m =>
    refine ⟨satisfied, fun c member => ?_⟩
    obtain ⟨i, listed, rfl⟩ := List.mem_map.mp member
    obtain ⟨d, needed, initializes⟩ := initializeAll_mem listed
    obtain ⟨id, _, context, known⟩ := named.resolve_left Event.noConfusion
    obtain ⟨frame, _, reached⟩ := sane.methods id context m known
    exact Facts.permits_method (satisfied frame m d i reached needed initializes)
  | _ => exact Reaction.proper_silent satisfied

end Initialized

namespace Threads

variable {s : Threads} {f g : Facts} {p : Program} {sel : Selector} {rules : HeapRules} {holds : Fact → Prop}
  {m : MethodId} {result w : VarId} {d : ContextId}

/-- Started threads were met where threads are started, and the current thread is asked for in contexts
that are known. -/
structure Remembers (p : Program) (rules : HeapRules) (holds : Fact → Prop) (f : Facts) (s : Threads) :
    Prop where
  satisfied : s.methods.Satisfied p rules holds
  started : ∀ o ∈ s.started, ∃ w c, s.methods.startThis = some w ∧ f.Suits holds c w (.interned o)
  main : ∀ o, s.mainThread = some o → s.methods.implicit = true ∧ o = s.methods.mainThread
  result : ∀ m v, s.methods.current = some (m, v) → p.Mentions m v
  asked : ∀ m v, s.methods.current = some (m, v) → ∀ c ∈ s.askedIn, f.Interned c m

section

variable (remembers : s.Remembers p rules holds f)

include remembers

theorem Remembers.later (grown : f.Extends g) : s.Remembers p rules holds g where
  satisfied := remembers.satisfied
  started := by
    intro o member
    obtain ⟨w, c, there, suits⟩ := remembers.started o member
    exact ⟨w, c, there, grown.suits suits⟩
  main := remembers.main
  result := remembers.result
  asked := fun m v current c asked => grown.interned (remembers.asked m v current c asked)

theorem Remembers.suits (sane : f.Sane p (Law.only p holds)) {c : ContextId} {o : CsObjId}
    (current : s.methods.current = some (m, result)) (known : f.Interned c m)
    (there : s.methods.startThis = some w) (suits : f.Suits holds d w (.interned o)) :
    f.Suits holds c result (.interned o) := by
  obtain ⟨frame, named, reached⟩ := sane.reached known
  obtain ⟨frame', i, _, item, inLaw⟩ := suits
  exact ⟨frame, i, named, item,
    remembers.satisfied.started w m result there current frame' frame i inLaw reached⟩

theorem launch_proper (sane : f.Sane p (Law.only p holds)) (declared : p.Scoped)
    (there : s.methods.startThis = some w) {delta : ObjSet} (suit : ∀ o ∈ delta, f.Suits holds d w (.interned o)) :
    (s.launch delta).Proper f p sel holds (Remembers p rules holds f) where
  state := by
    refine { remembers with started := fun o member => ?_ }
    rcases ObjSet.mem_union_fst.mp member with old | new
    · exact remembers.started o old
    · exact ⟨w, d, there, suit o new⟩
  commands := by
    intro c member
    unfold launch at member
    cases current : s.methods.current with
    | none => simp [current] at member
    | some pair =>
      obtain ⟨m, result⟩ := pair
      simp only [current, List.mem_flatMap] at member
      obtain ⟨context, asked, member⟩ := member
      have known := remembers.asked m result current context asked
      refine sane.permits_pointsTo declared ⟨m, known, remembers.result m result current⟩
        (fun r listed => ?_) c member
      obtain ⟨o, fresh, rfl⟩ := List.mem_map.mp listed
      exact remembers.suits sane current known there (suit o (ObjSet.mem_union_snd.mp fresh).1)

theorem ask_proper (sane : f.Sane p (Law.only p holds)) (declared : p.Scoped) {context : ContextId}
    (current : s.methods.current = some (m, result)) (known : f.Interned context m) :
    (s.ask context result).Proper f p sel holds (Remembers p rules holds f) where
  state := by
    refine { remembers with asked := fun n v same c member => ?_ }
    have here : ∀ c ∈ s.askedIn ++ [context], f.Interned c n := by
      intro c member
      rcases List.mem_append.mp member with old | new
      · exact remembers.asked n v same c old
      · rw [show s.methods.current = some (n, v) from same] at current
        cases current
        exact List.mem_singleton.mp new ▸ known
    refine here c ?_
    dsimp only [ask] at member
    split at member
    · exact List.mem_append_left _ member
    · exact member
  commands := by
    refine sane.permits_pointsTo declared ⟨m, known, remembers.result m result current⟩ fun r listed => ?_
    rcases List.mem_append.mp listed with main | started
    · obtain ⟨o, made, rfl⟩ := Option.map_eq_some_iff.mp (Option.mem_toList.mp main)
      obtain ⟨implicit, rfl⟩ := remembers.main o made
      obtain ⟨frame, named, reached⟩ := sane.reached known
      exact Facts.suits_plain named (remembers.satisfied.main implicit m result current frame reached)
    · obtain ⟨o, member, rfl⟩ := List.mem_map.mp started
      obtain ⟨w, d, there, suits⟩ := remembers.started o member
      exact remembers.suits sane current known there suits

theorem start_proper (implicit : s.methods.implicit = true) :
    (s.start rules).Proper f p sel holds (Remembers p rules holds f) where
  state := { remembers with
    main := fun _ made => ⟨implicit, (Option.some.inj made).symm⟩ }
  commands := by
    intro c member
    have given := remembers.satisfied.starts implicit
    have entry : ∃ entry, c = .addEntryPoint entry := by
      simp only [start, List.mem_append, List.mem_map] at member
      rcases member with (⟨m, _, rfl⟩ | ⟨m, _, rfl⟩) | ⟨m, _, rfl⟩ <;> exact ⟨_, rfl⟩
    obtain ⟨entry, rfl⟩ := entry
    exact given entry member

end

theorem react_proper (remembers : s.Remembers p f.heap.rules holds f) (sane : f.Sane p (Law.only p holds))
    (declared : p.Scoped) {e : Event} (named : e = .started ∨ e.Named f) :
    (s.react f e).Proper f p sel holds (Remembers p f.heap.rules holds f) := by
  refine Reaction.Meets.proper (react_meets remembers (fun implicit => (start_proper remembers implicit).meets)
    (fun q delta c v event known there => ?_) fun id c m v current known =>
      (ask_proper remembers sane declared current ⟨id, known⟩).meets)
  subst event
  exact (launch_proper remembers sane declared there fun o member =>
    sane.suits known (named.resolve_left Event.noConfusion o member)).meets

end Threads

namespace CallModels

variable {κ : Type} {t : CallModels κ} {p : Program} {c : ModeledCall κ}

theorem Models.invoke? (models : t.Models p c) : p.invoke? c.site = some c.call := by
  unfold Models callAt? at models
  split at models
  · cases models
  · next call calls =>
    obtain ⟨key, _, same⟩ := Option.map_eq_some_iff.mp models
    rw [calls, ← same]

def Remembers (p : Program) (t : CallModels κ) : Prop := ∀ c ∈ t.recorded, t.Models p c

theorem table_record (site : StmtRef) : (t.record p site).1.table = t.table := by
  unfold record
  split <;> rfl

theorem table_recordMethod (m : MethodId) : (t.recordMethod p m).table = t.table :=
  List.foldlRecOn (motive := fun u : CallModels κ => u.table = t.table) (p.stmtRefs m) _ rfl
    fun _ same x _ => (table_record x.1).trans same

theorem models_of_table {u : CallModels κ} (same : u.table = t.table) : u.Models p c ↔ t.Models p c := by
  unfold Models callAt?
  rw [show u.model? = t.model? by unfold model?; rw [same]]

theorem models_of_callAt? {site : StmtRef} (found : t.callAt? p site = some c) :
    t.Models p c ∧ c.site = site := by
  obtain rfl : c.site = site := by
    unfold callAt? at found
    split at found
    · cases found
    · obtain ⟨_, _, rfl⟩ := Option.map_eq_some_iff.mp found
      rfl
  exact ⟨found, rfl⟩

theorem Remembers.record (remembers : t.Remembers p) (site : StmtRef) : (t.record p site).1.Remembers p := by
  intro d member
  rw [models_of_table (table_record site)]
  unfold CallModels.record at member
  split at member
  · next c found =>
    rcases List.mem_append.mp member with old | new
    · exact remembers d old
    · cases List.mem_singleton.mp new
      exact (models_of_callAt? found).1
  · exact remembers d member

theorem Remembers.recordMethod (remembers : t.Remembers p) (m : MethodId) :
    (t.recordMethod p m).Remembers p := by
  refine List.foldlRecOn (motive := Remembers p) (p.stmtRefs m) _ remembers fun u good x _ => ?_
  exact good.record x.1

theorem Remembers.watched (remembers : t.Remembers p) {v : VarId} (member : c ∈ t.watching v) :
    t.Models p c ∧ p.Mentions c.site.method v := by
  obtain ⟨recorded, used⟩ := List.mem_filter.mp (mem_of_eraseDupsBy _ member)
  have models := remembers c recorded
  refine ⟨models, ?_⟩
  rcases (Bool.or_eq_true _ _).mp used with base | arg
  · exact Program.mentions_base models.invoke? (beq_iff_eq.mp base)
  · exact Program.mentions_arg models.invoke? (List.contains_iff_mem.mp arg)

end CallModels

namespace Natives

variable {s : Natives} {f : Facts} {p : Program} {sel : Selector} {holds : Fact → Prop} {context : ContextId}
  {c : ModeledCall NativeModel} {e : Event}

structure Remembers (p : Program) (holds : Fact → Prop) (s : Natives) : Prop where
  satisfied : s.Satisfied p holds
  models : s.models.Remembers p
  table : s.models.table = (ofProgram p).models.table

theorem Remembers.recordMethod (remembers : s.Remembers p holds) (m : MethodId) :
    Remembers p holds ⟨s.models.recordMethod p m⟩ := by
  have same : ∀ {c}, (s.models.recordMethod p m).Models p c → s.models.Models p c :=
    (CallModels.models_of_table (CallModels.table_recordMethod m)).mp
  obtain ⟨⟨copies, copied, cloned, crossed⟩, models, table⟩ := remembers
  exact ⟨⟨fun c made => copies c (same made), fun c made => copied c (same made),
    fun c made => cloned c (same made), fun c made => crossed c (same made)⟩, models.recordMethod m,
    (CallModels.table_recordMethod m).trans table⟩

/-- Edges of native methods pass objects on as they are, so what they do is no more than what they are. -/
theorem Flow.exact {a b : EdgeInfo} {x y x' y' : Cell} (first : Flow p holds (.other a) x y)
    (second : Flow p holds (.other b) x' y') (origin : a.origin = b.origin) (key : a.key = b.key) : a = b := by
  have bare : ∀ {info x y}, Flow p holds (.other info) x y → info.transfer = none := by
    intro info x y flow
    cases flow <;> rfl
  obtain ⟨_, _, _⟩ := a
  obtain ⟨_, _, _⟩ := b
  cases bare first
  cases bare second
  cases origin
  cases key
  rfl

theorem Remembers.made (remembers : s.Remembers p holds) (models : s.models.Models p c) :
    (ofProgram p).models.Models p c := (CallModels.models_of_table remembers.table).mp models

theorem Asks.permitted {d : Command} (asks : Asks p f e c d) (remembers : s.Remembers p holds)
    (sane : f.Sane p (Law.only p holds)) (declared : p.Scoped) (named : e = .started ∨ e.Named f)
    (models : s.models.Models p c) : f.Permits p sel (Law.only p holds) d := by
  have suits : ∀ {context v o}, Present f e context v o → f.Suits holds context v (.interned o) := by
    rintro context v o (⟨pts, held, member⟩ | ⟨q, delta, rfl, known, new⟩)
    · exact sane.suits_held held o member
    · exact sane.suits known (named.resolve_left Event.noConfusion o new)
  have made := remembers.made models
  have calls := models.invoke?
  cases asks with
  | @copy id context result copy known key answer copied =>
    obtain ⟨frame, named, reached⟩ := sane.reached ⟨id, known⟩
    exact sane.permits_varObj declared ⟨_, ⟨id, known⟩, Program.mentions_result calls answer⟩
      (Facts.suits_plain named (remembers.satisfied.copies c models key copy copied result answer frame reached))
  | @clone id context base result known key on answer =>
    obtain ⟨frame, named, reached⟩ := sane.reached ⟨id, known⟩
    have from_ : f.Owns p context base := ⟨_, ⟨id, known⟩, Program.mentions_base calls on⟩
    have to_ : f.Owns p context result := ⟨_, ⟨id, known⟩, Program.mentions_result calls answer⟩
    refine ⟨.var frame base, .var frame result, ⟨named, rfl⟩, ⟨named, rfl⟩, fun i held => ?_,
      .cloned made key on answer reached, ?_, ?_⟩
    · exact remembers.satisfied.cloned c models key base result on answer frame i reached held
    · rintro c v same m mentions
      cases same
      exact from_.interned declared mentions
    · rintro c v same m mentions
      cases same
      exact to_.interned declared mentions
  | @copied context arg o copy key first there copied =>
    obtain ⟨frame, i, _, item, inLaw⟩ := suits there
    exact Facts.permits_elementFlow item (f.objRefIs_plain copy) (fun j held =>
      remembers.satisfied.copied c models key copy copied arg first frame i j inLaw held)
      (.copied made key copied first inLaw)
  | @crossed context source target o o' key first third there there' =>
    obtain ⟨frame, i, named, item, inLaw⟩ := suits there
    obtain ⟨frame', j, named', item', inLaw'⟩ := suits there'
    obtain rfl := named.unique named'
    exact Facts.permits_elementFlow item item' (fun k held =>
      remembers.satisfied.crossed c models key source target first third frame i j k inLaw inLaw' held)
      (.crossed made key first third inLaw inLaw')

theorem react_proper (remembers : s.Remembers p holds) (sane : f.Sane p (Law.only p holds)) (declared : p.Scoped)
    (named : e = .started ∨ e.Named f) : (s.react p f e).Proper f p sel holds (Remembers p holds) :=
  Reaction.Meets.proper (react_meets remembers remembers.recordMethod (fun _ _ _ _ => trivial)
    fun c recorded _ asks => asks.permitted remembers sane declared named (remembers.models c recorded))

end Natives

namespace Reflection

variable {s : Reflection} {f : Facts} {p : Program} {sel : Selector} {holds : Fact → Prop} {context : ContextId}
  {c : ModeledCall ReflectionModel} {result v : VarId} {objs : List Obj} {r : Reaction Reflection}

structure Remembers (p : Program) (sel : Selector) (rules : HeapRules) (holds : Fact → Prop)
    (s : Reflection) : Prop where
  satisfied : s.Satisfied p sel rules holds
  models : s.models.Remembers p

theorem Remembers.recordMethod {rules : HeapRules} (remembers : s.Remembers p sel rules holds)
    (m : MethodId) : Remembers p sel rules holds { s with models := s.models.recordMethod p m } := by
  have same : ∀ {c}, (s.models.recordMethod p m).Models p c → s.models.Models p c :=
    (CallModels.models_of_table (CallModels.table_recordMethod m)).mp
  obtain ⟨⟨lookUp, makes, constructs, classes, unknown⟩, models⟩ := remembers
  exact ⟨⟨fun c made => lookUp c (same made), fun c made => makes c (same made),
    fun c made => constructs c (same made), fun c made => classes c (same made),
    fun c made => unknown c (same made)⟩, models.recordMethod m⟩

/-- The objects that a modelled call is told of may lie at a variable. -/
def Shown (f : Facts) (holds : Fact → Prop) (context : ContextId) (v : VarId) (objs : List Obj) : Prop :=
  ∀ o ∈ objs, ∃ frame i, f.FrameOf context frame ∧ i.obj = o ∧ holds (.points (.var frame v) i)

theorem lookUp_proper (remembers : s.Remembers p sel f.heap.rules holds) (sane : f.Sane p (Law.only p holds))
    (declared : p.Scoped) (models : s.models.Models p c) (key : c.key = .forName) {arg : VarId}
    (first : c.call.args.head? = some arg) (answer : c.call.result = some result) (owns : f.Owns p context result)
    {names : List Obj} (shown : Shown f holds context arg names) :
    (s.lookUp p f context c result names).Proper f p sel holds (Remembers p sel f.heap.rules holds) := by
  have found : ∀ o ∈ names, ∃ frame, f.FrameOf context frame ∧
      holds (.points (.var frame result) ⟨[], s.lookedUp p f.heap.rules c.site o⟩) ∧
      ∀ cls ∈ namedClass? p o, ∀ m ∈ initializersOf p cls, holds (.reached [] m) := by
    intro o listed
    obtain ⟨frame, i, named, rfl, inLaw⟩ := shown o listed
    exact ⟨frame, named, remembers.satisfied.lookUp c models key arg result first answer frame i inLaw⟩
  refine ⟨⟨⟨remembers.satisfied.lookUp, remembers.satisfied.makes, remembers.satisfied.constructs,
    remembers.satisfied.classes, remembers.satisfied.unknown⟩, remembers.models⟩, fun d member => ?_⟩
  rcases List.mem_append.mp member with entry | points
  · obtain ⟨m, listed, rfl⟩ := List.mem_map.mp entry
    obtain ⟨cls, among, initializes⟩ := Initialized.initializeAll_mem listed
    obtain ⟨_, looked, same⟩ := List.mem_filterMap.mp among
    obtain ⟨o, shown, rfl⟩ := List.mem_map.mp looked
    obtain ⟨_, _, _, inits⟩ := found o shown
    exact Facts.permits_method (inits cls same m initializes)
  · refine sane.permits_pointsTo declared owns (fun r listed => ?_) d points
    obtain ⟨_, among, rfl⟩ := List.mem_map.mp listed
    obtain ⟨_, looked, rfl⟩ := List.mem_map.mp among
    obtain ⟨o, shown, rfl⟩ := List.mem_map.mp looked
    obtain ⟨frame, named, inLaw, _⟩ := found o shown
    exact Facts.suits_plain named inLaw

theorem permits_instantiate (satisfied : s.Satisfied p sel f.heap.rules holds)
    (sane : f.Sane p (Law.only p holds)) (declared : p.Scoped) (models : s.models.Models p c)
    (key : c.key = .newInstance) {base : VarId} (on : c.call.base = some base)
    (answer : c.call.result = some result) (known : f.Interned context c.site.method) {o : Obj} {frame : Frame}
    {i : Item} (named : f.FrameOf context frame) (same : i.obj = o) (inLaw : holds (.points (.var frame base) i))
    {cls : ClassId} (makes : instantiable? p o = some cls) :
    ∀ d ∈ (instantiate p context c result cls).2, f.Permits p sel (Law.only p holds) d := by
  subst same
  have owns : f.Owns p context result := ⟨_, known, Program.mentions_result models.invoke? answer⟩
  intro d member
  rcases List.mem_cons.mp member with rfl | called
  · exact sane.permits_varObj declared owns (Facts.suits_plain named
      (satisfied.makes c models key base result on answer frame i inLaw cls makes))
  · obtain ⟨init, declares, rfl⟩ := List.mem_map.mp called
    obtain ⟨calls, receives⟩ := satisfied.constructs c models key base result on answer frame i inLaw
      cls makes init (Option.mem_toList.mp declares)
    exact ⟨frame, _, named, known, f.objRefIs_plain _, calls, receives⟩

theorem Updates.proper (updates : Updates p f s context v objs c r)
    (remembers : s.Remembers p sel f.heap.rules holds) (sane : f.Sane p (Law.only p holds)) (declared : p.Scoped)
    (models : s.models.Models p c) (known : f.Interned context c.site.method)
    (shown : Shown f holds context v objs) : r.Proper f p sel holds (Remembers p sel f.heap.rules holds) := by
  have owns : ∀ {result}, c.call.result = some result → f.Owns p context result :=
    fun answer => ⟨_, known, Program.mentions_result models.invoke? answer⟩
  cases updates with
  | looks answer key first =>
    exact lookUp_proper remembers sane declared models key first answer (owns answer) shown
  | makes answer key on =>
    refine ⟨remembers, fun d member => ?_⟩
    obtain ⟨part, listed, member⟩ := List.mem_flatMap.mp member
    obtain ⟨cls, among, rfl⟩ := List.mem_map.mp listed
    obtain ⟨o, listed, makes⟩ := List.mem_filterMap.mp among
    obtain ⟨frame, i, named, same, inLaw⟩ := shown o listed
    exact permits_instantiate remembers.satisfied sane declared models key on answer known named same
      inLaw makes d member
  | @classes result answer key on =>
    refine ⟨remembers, sane.permits_pointsTo declared (owns answer) fun r listed => ?_⟩
    obtain ⟨k, among, rfl⟩ := List.mem_map.mp listed
    obtain ⟨o, listed, has⟩ := List.mem_filterMap.mp among
    obtain ⟨frame, i, named, rfl, inLaw⟩ := shown o listed
    exact Facts.suits_plain named
      (remembers.satisfied.classes c models key v result on answer frame i inLaw k has)
  | idle => exact Reaction.proper_silent remembers

theorem shown_delta (sane : f.Sane p (Law.only p holds)) {q : PointerId} {delta : ObjSet}
    (known : f.elements.pointer? q = some (.var context v)) (held : ∀ o ∈ delta, f.elements.Holds q o) :
    Shown f holds context v (delta.toList.filterMap f.obj?) := by
  intro obj listed
  obtain ⟨o, member, found⟩ := List.mem_filterMap.mp listed
  obtain ⟨frame, i, named, ⟨c, described, _⟩, inLaw⟩ := sane.suits known (held o member)
  have same := (Facts.obj?_of_describe? described).symm.trans found
  exact ⟨frame, i, named, Option.some.inj same, inLaw⟩

theorem react_proper (remembers : s.Remembers p sel f.heap.rules holds) (sane : f.Sane p (Law.only p holds))
    (declared : p.Scoped) {e : Event} (named : e = .started ∨ e.Named f) :
    (s.react p f e).Proper f p sel holds (Remembers p sel f.heap.rules holds) := by
  refine Reaction.Meets.proper (react_meets remembers (fun m _ => remembers.recordMethod m) ?_ ?_)
  · intro id context c result known recorded unknown answer
    have models := remembers.models c recorded
    obtain ⟨frame, named, reached⟩ := sane.reached ⟨id, known⟩
    exact ⟨trivial, sane.permits_varObj declared ⟨_, ⟨id, known⟩, Program.mentions_result models.invoke? answer⟩
      (Facts.suits_plain named (remembers.satisfied.unknown c models unknown result answer frame reached))⟩
  · rintro q delta context v u initialized c r rfl known good rfl watched updates
    obtain ⟨models, mentions⟩ := remembers.models.watched watched
    exact (updates.proper good sane declared models (sane.interned known mentions)
      (shown_delta sane known (named.resolve_left Event.noConfusion))).meets

end Reflection

namespace LiteralAssigns

variable {s : LiteralAssigns} {f : Facts} {p : Program} {sel : Selector} {holds : Fact → Prop}
  {accepts : Literal → Bool} {obj? : VarId → Literal → Option Obj}

structure Remembers (p : Program) (accepts : Literal → Bool) (obj? : VarId → Literal → Option Obj)
    (holds : Fact → Prop) (s : LiteralAssigns) : Prop where
  satisfied : Satisfied p accepts obj? holds
  assigns : ∀ x ∈ s.assigns, ∃ site : StmtRef, site.method = x.1 ∧
    p.stmt? site = some (.literal x.2.1 x.2.2) ∧ accepts x.2.2 = true

theorem Remembers.record (remembers : s.Remembers p accepts obj? holds) (site : StmtRef) :
    (s.record p accepts site).Remembers p accepts obj? holds := by
  refine ⟨remembers.satisfied, ?_⟩
  unfold LiteralAssigns.record
  split
  · next v value known =>
    split
    · next accepted =>
      intro x member
      rcases List.mem_append.mp member with old | new
      · exact remembers.assigns x old
      · cases List.mem_singleton.mp new
        exact ⟨site, rfl, known, accepted⟩
    · exact remembers.assigns
  · exact remembers.assigns

theorem react_proper (remembers : s.Remembers p accepts obj? holds) (sane : f.Sane p (Law.only p holds))
    (declared : p.Scoped) (e : Event) :
    (react p accepts obj? s f e).Proper f p sel holds (Remembers p accepts obj? holds) := by
  refine Reaction.Meets.proper
    (react_meets remembers remembers.record fun id c m v value o known assigned made => ?_)
  obtain ⟨site, rfl, stmt, accepted⟩ := remembers.assigns _ assigned
  obtain ⟨frame, named, reached⟩ := sane.reached ⟨id, known⟩
  exact ⟨trivial, sane.permits_varObj declared ⟨_, ⟨id, known⟩, Program.mentions_of_stmt stmt (Or.inr rfl)⟩
    (Facts.suits_plain named (remembers.satisfied site v value o stmt accepted made frame reached))⟩

end LiteralAssigns

end PointsTo
