import PointsTo.Proofs.Dispatch
import PointsTo.Proofs.Sanitizing

/-!
The order of static initialisers. Whatever classes are asked for, a class is initialised once and after its
superclasses, and no initialiser runs that nobody needs. In a run, whatever needs a class makes the
initialisers of the class and of its superclasses entry methods.
-/
namespace PointsTo

variable {p : Program} {c : ClassId} {m : MethodId}

namespace Program

variable {p q : Program} {b c d e : ClassId} {m : MethodId} {s : String} {low high : List ClassId}

theorem mem_above (acyclic : p.Acyclic) (split : p.superclasses c = low ++ e :: high)
    (extending : p.Extends e d) (inside : d < p.classes.size) (other : d ≠ e) : d ∈ high := by
  have listed : e ∈ p.superclasses c := by simp [split]
  have above : d ∈ p.superclasses e := (mem_superclasses inside).mpr extending
  have member := superclasses_trans listed above inside
  rw [split, List.mem_append, List.mem_cons] at member
  rcases member with lower | same | higher
  · -- a class that stands before `e` lies below it, and this one lies above it as well
    have ordered : (low ++ e :: high).Pairwise p.Below := split ▸ superChain_pairwise
    have back : p.Below d e := (List.pairwise_append.mp ordered).2.2 d lower e List.mem_cons_self
    have strict : p.StrictlyBelow e d :=
      (Relation.reflTransGen_iff_eq_or_transGen.mp (superclasses_below above)).resolve_left other
    exact absurd back (acyclic.not_below strict)
  · exact absurd same other
  · exact higher

def Housed (p : Program) : Prop :=
  ∀ c decl, p.classes[c]? = some decl → ∀ m ∈ decl.methods, p.ownerOf? m = some c

theorem Housed.declared?_inj (housed : p.Housed) (first : p.declared? c s = some m)
    (second : p.declared? d s = some m) : c = d := by
  obtain ⟨_, _, known, listed, _⟩ := declares_of_declared? first
  obtain ⟨_, _, known', listed', _⟩ := declares_of_declared? second
  exact Option.some.inj ((housed c _ known m listed).symm.trans (housed d _ known' m listed'))

/-- Programs as they are built, step by step. -/
inductive Built : Program → Prop
  | empty : Built {}
  | addClass {p : Program} (built : Built p) (name : String) (superclass : Option ClassId) :
    Built (p.addClass name superclass)
  | addInterface {p : Program} (built : Built p) (name : String) (extended : List ClassId) :
    Built (p.addInterface name extended)
  | addInterfaces {p : Program} (built : Built p) (c : ClassId) (interfaces : List ClassId) :
    Built (p.addInterfaces c interfaces)
  | setAbstract {p : Program} (built : Built p) (c : ClassId) : Built (p.setAbstract c)
  | setLibrary {p : Program} (built : Built p) (c : ClassId) : Built (p.setLibrary c)
  | addField {p : Program} (built : Built p) (owner : ClassId) (name : String) (ty : Ty) (isStatic : Bool) :
    Built (p.addField owner name ty isStatic)
  | addMethod {p : Program} (built : Built p) (owner : ClassId) (name : String) (params : List Ty) (ret : Ty)
    (flags : MethodFlags) : Built (p.addMethod owner name params ret flags)
  | setBody {p : Program} (built : Built p) (m : MethodId) (text : BodyText) : Built (p.setBody m text)
  | setMain {p : Program} (built : Built p) (m : MethodId) : Built (p.setMain m)

theorem Built.steps {P : Program → Prop} (built : p.Built) (empty : P {})
    (push : ∀ p d, P p → d.methods = [] → P (p.push d))
    (modify : ∀ p q b f, P p → (∀ d : ClassDecl, (f d).name = d.name ∧ (f d).methods = d.methods) →
      q.classes = p.classes.modify b f → q.methods = p.methods → P q)
    (addMethod : ∀ p owner name params ret flags, P p → P (p.addMethod owner name params ret flags))
    (setBody : ∀ p m text, P p → P (p.setBody m text)) (setMain : ∀ p m, P p → P (p.setMain m)) : P p := by
  induction built with
  | empty => exact empty
  | addClass _ _ _ ih => exact push _ _ ih rfl
  | addInterface _ _ _ ih => exact push _ _ ih rfl
  | addInterfaces _ c interfaces ih =>
    exact modify _ _ c (fun d => { d with interfaces := d.interfaces ++ interfaces })
      ih (fun _ => ⟨rfl, rfl⟩) rfl rfl
  | setAbstract _ c ih =>
    exact modify _ _ c (fun d => { d with isAbstract := true }) ih (fun _ => ⟨rfl, rfl⟩) rfl rfl
  | setLibrary _ c ih =>
    exact modify _ _ c (fun d => { d with isApplication := false }) ih (fun _ => ⟨rfl, rfl⟩) rfl rfl
  | @addField p _ owner _ _ _ ih =>
    exact modify _ _ owner (fun d => { d with fields := d.fields ++ [p.fields.size] })
      ih (fun _ => ⟨rfl, rfl⟩) rfl rfl
  | addMethod _ owner name params ret flags ih => exact addMethod _ owner name params ret flags ih
  | setBody _ m text ih => exact setBody _ m text ih
  | setMain _ m ih => exact setMain _ m ih

/-- What a step has to keep: the owners of the methods there are, and what the classes list. -/
theorem Housed.grow (housed : p.Housed)
    (owners : ∀ m c, p.ownerOf? m = some c → q.ownerOf? m = some c)
    (listed : ∀ c decl, q.classes[c]? = some decl → ∀ m ∈ decl.methods,
      (∃ old, p.classes[c]? = some old ∧ m ∈ old.methods) ∨ q.ownerOf? m = some c) : q.Housed := by
  intro c decl known m member
  rcases listed c decl known m member with ⟨old, before, there⟩ | owned
  · exact owners m c (housed c old before m there)
  · exact owned

theorem Housed.push (housed : p.Housed) {new : ClassDecl} (empty : new.methods = []) :
    (p.push new).Housed := by
  refine housed.grow (fun _ _ owned => owned) fun c decl known m member => ?_
  rw [Program.push, Array.getElem?_push] at known
  split at known
  · cases known
    rw [empty] at member
    cases member
  · exact Or.inl ⟨decl, known, member⟩

theorem Housed.modify (housed : p.Housed) {f : ClassDecl → ClassDecl} (same : ∀ d, (f d).methods = d.methods)
    (classes : q.classes = p.classes.modify b f) (methods : q.methods = p.methods) : q.Housed := by
  refine housed.grow (fun m c owned => by rwa [ownerOf?, methods]) fun c decl known m member => Or.inl ?_
  rw [classes, Array.getElem?_modify] at known
  split at known
  · obtain ⟨old, before, rfl⟩ := Option.map_eq_some_iff.mp known
    exact ⟨old, before, same old ▸ member⟩
  · exact ⟨decl, known, member⟩

theorem Housed.addMethod (housed : p.Housed) (name : String) (params : List Ty) (ret : Ty)
    (flags : MethodFlags) : (p.addMethod b name params ret flags).Housed := by
  refine housed.grow (fun m c owned => ?_) fun c decl known m member => ?_
  · obtain ⟨method, found, rfl⟩ := Option.map_eq_some_iff.mp owned
    have inside := (Array.getElem?_eq_some_iff.mp found).1
    simp only [Program.addMethod, ownerOf?, Array.getElem?_push, Nat.ne_of_lt inside, if_false, found,
      Option.map_some]
  · simp only [Program.addMethod, Array.getElem?_modify] at known
    split at known
    · next same =>
      obtain ⟨old, before, rfl⟩ := Option.map_eq_some_iff.mp known
      rcases List.mem_append.mp member with there | new
      · exact Or.inl ⟨old, before, there⟩
      · -- the new method belongs to the class that lists it
        rw [List.mem_singleton] at new
        subst new same
        exact Or.inr (by simp [Program.addMethod, ownerOf?])
    · exact Or.inl ⟨decl, known, member⟩

theorem Housed.setBody (housed : p.Housed) (m : MethodId) (text : BodyText) : (p.setBody m text).Housed := by
  unfold Program.setBody
  split
  · exact housed
  · refine housed.grow (fun n c owned => ?_) fun c decl known n member => Or.inl ⟨decl, known, member⟩
    obtain ⟨method, found, rfl⟩ := Option.map_eq_some_iff.mp owned
    rw [ownerOf?, Array.getElem?_modify]
    split <;> simp [found]

theorem Built.housed (built : p.Built) : p.Housed := by
  refine built.steps (P := Housed) (by simp [Housed]) (fun p new housed empty => housed.push empty)
    (fun p q b f housed same classes methods => housed.modify (fun d => (same d).2) classes methods) ?_ ?_ ?_
  · exact fun p owner name params ret flags housed => housed.addMethod name params ret flags
  · exact fun p m text housed => housed.setBody m text
  · exact fun p m housed => housed

/-- The variables that a body lists are declared for its method. -/
def Listed (p : Program) : Prop :=
  ∀ m body, p.body? m = some body → ∀ v ∈ body.vars, (p.vars[v]?).map VarDecl.method = some m

theorem Listed.setBody (listed : p.Listed) (m : MethodId) (text : BodyText) : (p.setBody m text).Listed := by
  unfold Program.setBody
  split
  · exact listed
  · next d found =>
    intro n body code v member
    simp only [body?, Array.getElem?_modify] at code
    split at code
    · next same =>
      -- the new variables come after all others
      subst same
      simp only [found, Option.map_some, Option.bind_some, Option.some.injEq] at code
      subst code
      obtain ⟨i, inside, rfl⟩ := List.mem_map.mp member
      have bound := List.mem_range.mp inside
      rw [Array.getElem?_append_right (Nat.le_add_right _ _), Nat.add_sub_cancel_left, List.getElem?_toArray,
        List.getElem?_map, List.getElem?_eq_getElem bound]
      rfl
    · have old := listed n body code v member
      obtain ⟨decl, known, _⟩ := Option.map_eq_some_iff.mp old
      rwa [Array.getElem?_append_left (Array.getElem?_eq_some_iff.mp known).1]

theorem Built.listed (built : p.Built) : p.Listed := by
  induction built with
  | empty => exact fun m body code => by simp [body?] at code
  | addMethod _ owner name params ret flags ih =>
    intro m body code
    simp only [body?, Program.addMethod, Array.getElem?_push] at code
    split at code
    · cases code
    · exact ih m body code
  | setBody _ m text ih => exact ih.setBody m text
  | _ => assumption

/-- Bodies built over their own variables use no others. -/
theorem Built.scoped (built : p.Built)
    (own : ∀ m body, p.body? m = some body → body.mentioned ⊆ body.vars) : p.Scoped :=
  fun m body code v member => built.listed m body code v (own m body code member)

end Program

namespace Initialized

variable {p : Program} {t : Initialized} {c : ClassId} {requests : List ClassId} {log : List MethodId}

/-- No class is in the table twice, and each stands after those that it extends. -/
structure Orderly (p : Program) (t : Initialized) : Prop where
  distinct : t.classes.Nodup
  after : ∀ past c rest, t.classes = past ++ c :: rest →
    ∀ d < p.classes.size, p.Extends c d → d ≠ c → d ∈ past

theorem Orderly.add (orderly : t.Orderly p) (new : c ∉ t.classes)
    (ready : ∀ d < p.classes.size, p.Extends c d → d ≠ c → d ∈ t.classes) :
    Orderly p ⟨t.classes ++ [c]⟩ where
  distinct := by
    refine List.nodup_append.mpr ⟨orderly.distinct, List.nodup_singleton c, ?_⟩
    rintro a old b last rfl
    exact new (List.mem_singleton.mp last ▸ old)
  after := by
    intro past e rest cut
    rcases snoc_cut cut with ⟨rfl, rfl, _⟩ | ⟨before, cut⟩
    · exact ready
    · exact orderly.after past e before cut

/-- A chain in which every class stands after those that it extends keeps the table in order. -/
theorem Orderly.initializeChain {chain : List ClassId} (declares : ClassId → Option MethodId)
    (orderly : t.Orderly p) (ready : ∀ past c rest, chain = past ++ c :: rest → ∀ d < p.classes.size,
      p.Extends c d → d ≠ c → d ∈ t.classes ∨ d ∈ past) :
    (t.initializeChain (chain.map fun c => (c, declares c))).1.Orderly p := by
  induction chain generalizing t with
  | nil => exact orderly
  | cons c rest ih =>
    rw [List.map_cons, Initialized.initializeChain]
    by_cases known : t.has c = true
    · rw [if_pos known]
      refine ih orderly fun past e later cut d inside extending other => ?_
      rcases ready (c :: past) e later (by rw [cut, List.cons_append]) d inside extending other with old | before
      · exact Or.inl old
      · rcases List.mem_cons.mp before with rfl | before
        · exact Or.inl (List.contains_iff_mem.mp known)
        · exact Or.inr before
    · rw [if_neg known]
      have new : c ∉ t.classes := fun member => known (List.contains_iff_mem.mpr member)
      have here : ∀ d < p.classes.size, p.Extends c d → d ≠ c → d ∈ t.classes := by
        intro d inside extending other
        exact (ready [] c rest rfl d inside extending other).resolve_right List.not_mem_nil
      refine ih (orderly.add new here) fun past e later cut d inside extending other => ?_
      rcases ready (c :: past) e later (by rw [cut, List.cons_append]) d inside extending other with old | before
      · exact Or.inl (List.mem_append_left _ old)
      · rcases List.mem_cons.mp before with rfl | before
        · exact Or.inl (List.mem_append_right _ List.mem_cons_self)
        · exact Or.inr before

theorem initializeChain_added (declares : ClassId → Option MethodId) (chain : List ClassId) (t : Initialized) :
    ∃ new, (t.initializeChain (chain.map fun c => (c, declares c))).1.classes = t.classes ++ new ∧
      (t.initializeChain (chain.map fun c => (c, declares c))).2 = new.filterMap declares ∧
      ∀ c, c ∈ t.classes ++ new ↔ c ∈ t.classes ∨ c ∈ chain := by
  induction chain generalizing t with
  | nil => exact ⟨[], by simp [initializeChain]⟩
  | cons c rest ih =>
    rw [List.map_cons, initializeChain]
    by_cases known : t.has c = true
    · rw [if_pos known]
      obtain ⟨new, classes, answer, members⟩ := ih t
      refine ⟨new, classes, answer, fun d => ?_⟩
      rw [members, List.mem_cons]
      have there : c ∈ t.classes := List.contains_iff_mem.mp known
      constructor
      · exact fun member => member.imp_right Or.inr
      · rintro (old | rfl | later)
        · exact Or.inl old
        · exact Or.inl there
        · exact Or.inr later
    · rw [if_neg known]
      obtain ⟨new, classes, answer, members⟩ := ih ⟨t.classes ++ [c]⟩
      refine ⟨c :: new, by simpa using classes, ?_, fun d => ?_⟩
      · dsimp only
        rw [answer, List.filterMap_cons]
        cases declares c <;> simp
      · have members := members d
        simp only [List.append_assoc, List.singleton_append] at members
        rw [members]
        simp [or_assoc]

/-- What the table and the answers so far say of the classes that were asked for. -/
structure Tracks (p : Program) (requests : List ClassId) (t : Initialized) (log : List MethodId) : Prop
    extends t.Orderly p where
  answers : log = t.classes.filterMap fun c => p.declared? c initializerSubsignature
  requested : ∀ c < p.classes.size, c ∈ t.classes ↔ ∃ r ∈ requests, p.Extends r c

theorem Tracks.start (p : Program) : Tracks p [] {} [] where
  distinct := List.nodup_nil
  after := by
    intro past c rest cut
    simp at cut
  answers := rfl
  requested := by simp

theorem Tracks.require (acyclic : p.Acyclic) (tracks : Tracks p requests t log) (c : ClassId) :
    Tracks p (requests ++ [c]) (t.require p c).1 (log ++ (t.require p c).2) := by
  unfold Initialized.require
  by_cases known : t.has c = true
  · rw [if_pos known, List.append_nil]
    refine ⟨tracks.toOrderly, tracks.answers, fun d inside => ?_⟩
    rw [tracks.requested d inside]
    constructor
    · rintro ⟨r, asked, extending⟩
      exact ⟨r, List.mem_append_left _ asked, extending⟩
    · rintro ⟨r, asked, extending⟩
      rcases List.mem_append.mp asked with before | here
      · exact ⟨r, before, extending⟩
      · -- the class was there, so those that it extends stand before it
        obtain rfl := List.mem_singleton.mp here
        refine (tracks.requested d inside).mp ?_
        obtain ⟨past, rest, cut⟩ := List.append_of_mem (List.contains_iff_mem.mp known)
        by_cases same : d = r
        · exact same ▸ List.contains_iff_mem.mp known
        · exact cut ▸ List.mem_append_left _ (tracks.after past r rest cut d inside extending same)
  · rw [if_neg known]
    have ready : ∀ past e rest, (p.superclasses c).reverse = past ++ e :: rest → ∀ d < p.classes.size,
        p.Extends e d → d ≠ e → d ∈ t.classes ∨ d ∈ past := by
      intro past e rest cut d inside extending other
      have split : p.superclasses c = rest.reverse ++ e :: past.reverse := by
        rw [← List.reverse_reverse (p.superclasses c), cut]
        simp
      exact Or.inr (List.mem_reverse.mp (Program.mem_above acyclic split extending inside other))
    obtain ⟨new, classes, answer, members⟩ := initializeChain_added
      (fun d => p.declared? d initializerSubsignature) (p.superclasses c).reverse t
    refine ⟨tracks.toOrderly.initializeChain _ ready, ?_, fun d inside => ?_⟩
    · unfold initializerChain
      rw [classes, answer, List.filterMap_append, ← tracks.answers]
    · unfold initializerChain
      rw [classes, members, tracks.requested d inside, List.mem_reverse, Program.mem_superclasses inside]
      constructor
      · rintro (⟨r, asked, extending⟩ | extending)
        · exact ⟨r, List.mem_append_left _ asked, extending⟩
        · exact ⟨c, by simp, extending⟩
      · rintro ⟨r, asked, extending⟩
        rcases List.mem_append.mp asked with before | here
        · exact Or.inl ⟨r, before, extending⟩
        · exact Or.inr (List.mem_singleton.mp here ▸ extending)

theorem Tracks.initializeAll (acyclic : p.Acyclic) (tracks : Tracks p requests t log) (classes : List ClassId) :
    Tracks p (requests ++ classes) (t.initializeAll p classes).1 (log ++ (t.initializeAll p classes).2) := by
  induction classes generalizing requests t log with
  | nil => simpa [Initialized.initializeAll] using tracks
  | cons c rest ih => simpa [Initialized.initializeAll] using ih (tracks.require acyclic c)

/-- The answers to requests hold each initialiser that they need once, after those of the superclasses,
and nothing else. -/
structure Ordered (p : Program) (requests : List ClassId) (t : Initialized) (log : List MethodId) : Prop where
  requested : ∀ r ∈ requests, r < p.classes.size → r ∈ t.classes
  closed : ∀ c ∈ t.classes, ∀ d < p.classes.size, p.Extends c d → d ∈ t.classes
  once : log.Nodup
  needed : ∀ m, m ∈ log ↔ ∃ r ∈ requests, ∃ c, p.Extends r c ∧ p.declared? c initializerSubsignature = some m
  after : ∀ past m rest, log = past ++ m :: rest → ∀ c, p.declared? c initializerSubsignature = some m →
    ∀ d n, p.Extends c d → d ≠ c → p.declared? d initializerSubsignature = some n → n ∈ past

theorem Tracks.ordered (housed : p.Housed) (tracks : Tracks p requests t log) : Ordered p requests t log where
  requested := fun r asked inside => (tracks.requested r inside).mpr ⟨r, asked, 0, rfl⟩
  closed := by
    intro c member d inside extending
    by_cases same : d = c
    · exact same ▸ member
    · obtain ⟨past, rest, cut⟩ := List.append_of_mem member
      exact cut ▸ List.mem_append_left _ (tracks.after past c rest cut d inside extending same)
  once := by
    rw [tracks.answers]
    exact tracks.distinct.filterMap fun c d m first second => housed.declared?_inj first second
  needed := by
    intro m
    rw [tracks.answers, List.mem_filterMap]
    constructor
    · rintro ⟨c, member, declares⟩
      obtain ⟨r, asked, extending⟩ := (tracks.requested c (Program.lt_of_declared? declares)).mp member
      exact ⟨r, asked, c, extending, declares⟩
    · rintro ⟨r, asked, c, extending, declares⟩
      exact ⟨c, (tracks.requested c (Program.lt_of_declared? declares)).mpr ⟨r, asked, extending⟩, declares⟩
  after := by
    intro past m rest cut c declares d n extending other above
    rw [tracks.answers] at cut
    obtain ⟨before, later, classes, rfl, answer⟩ := List.filterMap_eq_append_iff.mp cut
    obtain ⟨skipped, e, later, rfl, silent, declares', rfl⟩ := List.filterMap_eq_cons_iff.mp answer
    obtain rfl := housed.declared?_inj declares declares'
    have split : t.classes = (before ++ skipped) ++ c :: later := by rw [classes, List.append_assoc]
    -- the superclass stands before, and it is none of those that declare nothing
    have earlier := tracks.after _ c later split d (Program.lt_of_declared? above) extending other
    rcases List.mem_append.mp earlier with there | among
    · exact List.mem_filterMap.mpr ⟨d, there, above⟩
    · rw [silent d among] at above
      cases above

end Initialized

/-- What makes a method need a class. -/
inductive Program.Needs (p : Program) : MethodId → ClassId → Prop
  | member {m : MethodId} {decl : MethodDecl} (known : p.methods[m]? = some decl)
    (own : decl.flags.isStatic = true ∨ decl.isConstructor = true) : Needs p m decl.owner
  | allocates {site : StmtRef} {lhs : VarId} {c : ClassId} (stmt : p.stmt? site = some (.new lhs (.cls c))) :
    Needs p site.method c
  | loads {site : StmtRef} {lhs : VarId} {f : FieldId} {decl : FieldDecl}
    (stmt : p.stmt? site = some (.loadStatic lhs f)) (field : p.fields[f]? = some decl) :
    Needs p site.method decl.owner
  | stores {site : StmtRef} {rhs : VarId} {f : FieldId} {decl : FieldDecl}
    (stmt : p.stmt? site = some (.storeStatic f rhs)) (field : p.fields[f]? = some decl) :
    Needs p site.method decl.owner
  | calls {site : StmtRef} {call : Invoke} {m : MethodId} {decl : MethodDecl}
    (stmt : p.stmt? site = some (.invoke call)) (static : call.isStatic = true)
    (resolved : p.resolve? call.target = some m) (known : p.methods[m]? = some decl) :
    Needs p site.method decl.owner

theorem mem_neededClasses_of_stmt {site : StmtRef} {stmt : Stmt} (here : p.stmt? site = some stmt)
    (needed : stmt.neededClass? p = some c) : c ∈ neededClasses p site.method :=
  List.mem_append_right _ (List.mem_filterMap.mpr ⟨stmt, List.mem_of_getElem? here, needed⟩)

theorem Program.Needs.mem (needs : p.Needs m c) : c ∈ neededClasses p m := by
  cases needs with
  | member known own =>
    refine List.mem_append_left _ ?_
    simp only [known, Bool.or_eq_true, if_pos own, List.mem_singleton]
  | allocates stmt => exact mem_neededClasses_of_stmt stmt rfl
  | loads stmt field | stores stmt field =>
    exact mem_neededClasses_of_stmt stmt (by simp [Stmt.neededClass?, field])
  | calls stmt static resolved known =>
    exact mem_neededClasses_of_stmt stmt (by simp [Stmt.neededClass?, static, resolved, Program.ownerOf?, known])

def Facts.Starts (f : Facts) (m : MethodId) : Prop :=
  ∃ id ∈ f.calls.entries, f.elements.method? id = some (ContextTable.emptyId, m)

theorem Facts.Extends.starts {f g : Facts} (grown : f.Extends g) (starts : f.Starts m) : g.Starts m := by
  obtain ⟨id, entry, known⟩ := starts
  exact ⟨id, grown.entries id entry, grown.methods _ _ known⟩

/-- The initialisers of all classes that reachable methods need are entry methods, and reachable. -/
def Facts.Initializes (f : Facts) (p : Program) : Prop :=
  ∀ c m, f.Reaches c m → ∀ d, p.Needs m d → ∀ e i, p.Extends d e →
    p.declared? e initializerSubsignature = some i → f.Starts i ∧ f.Reaches ContextTable.emptyId i

theorem State.enter_starts {σ : Type u} (s : State σ) (cx : Setup σ) (entry : EntryPoint) :
    (s.enter cx entry).Starts entry.method := by
  have noted : (s.noting entry.method).Starts entry.method :=
    ⟨_, State.mem_noting.mpr (Or.inr rfl),
      Table.get?_intern_self s.elements.methods (ContextTable.emptyId, entry.method)⟩
  have kept := (State.reach_spares (s.noting entry.method) cx
    (s.internMethod ContextTable.emptyId entry.method).2).trans (State.enter_hush s cx entry).spares
  exact kept.grown.starts noted

namespace Solver

theorem Step.starts {σ : Type u} {cx : Setup σ} {policy : Policy} {s t : State σ} {R : Regime cx}
    {entry : EntryPoint} (step : Step cx policy s t) (lawful : s.Lawful R)
    (waits : .addEntryPoint entry ∈ s.queue) : .addEntryPoint entry ∈ t.queue ∨ t.Starts entry.method := by
  rcases step.carried lawful waits with later | ⟨rest, _, rfl⟩
  · exact Or.inl later
  · exact Or.inr (State.enter_starts (s.popping rest) cx entry)

variable {σ : Type u} {cx : Setup σ} {R : Regime cx} {first : σ} {sleeps : R.Sleeps} {s t : State (Watched σ)}

/-- Every entry method that was asked for is one, or a command for it waits. -/
def Begins (cx : Setup σ) (s : State (Watched σ)) : Prop :=
  ∀ x ∈ s.record, ∀ entry, .addEntryPoint entry ∈ x.commands cx →
    .addEntryPoint entry ∈ s.queue ∨ s.Starts entry.method

theorem Begins.step (begins : Begins cx s) (lawful : s.Lawful (R.watched first sleeps))
    (step : Step cx.watched Policy.callsFirst s t) : Begins cx t := by
  obtain ⟨u, _, same, _, ⟨new, record, queue, _⟩, _⟩ := step.voices lawful
  rw [same] at record
  intro x listed entry asked
  rw [record] at listed
  rcases List.mem_append.mp listed with before | after
  · rcases begins x before entry asked with waits | starts
    · exact step.starts lawful waits
    · exact Or.inr ((step.lawful lawful).2.grown.starts starts)
  · refine Or.inl ?_
    rw [queue]
    exact List.mem_append_right _ (List.mem_flatMap.mpr ⟨x, after, asked⟩)

theorem Visits.begins {heap : Heap} (visited : Visits cx.watched (start cx.watched heap (first, [])) s)
    (prompt : R.Prompt) (opens : R.Opens heap first) (good : R.Good { heap } first)
    (sane : Facts.Sane { heap } cx.program R.law) : Begins cx s := by
  induction visited with
  | here =>
    intro x listed entry asked
    cases List.mem_singleton.mp listed
    exact Or.inl asked
  | next visited stepped ih =>
    exact ih.step (visited.heeds prompt opens good sane).settles.toLawful (step_running stepped)

end Solver

namespace Registry

variable {p : Program} {o : Options} {files : FileTree} {chain : Chain} {sel : Selector} {fuel : Nat}
  {t : State Chain}

variable (made : builtin.chain p o files = .ok chain) (declared : p.Scoped)
  (solved : Solver.solve (Chain.setup p sel) fuel (Heap.ofProgram p o.mergeStrings) chain = some t)

include made declared solved

theorem solved_starts :
    ∃ w u, Solver.Heeds (Chain.freely p sel (HeapRules.ofProgram p o.mergeStrings) chain.transfers declared) chain
        (Chain.prompt declared).sleeps w ∧
      Solver.Finishes (Chain.setup p sel).watched w u ∧ t.toFacts = w.toFacts ∧
      ∀ x ∈ w.record, ∀ entry, .addEntryPoint entry ∈ x.commands (Chain.setup p sel) → w.Starts entry.method := by
  rw [← Solver.plain_solve] at solved
  obtain ⟨u, watched, rfl⟩ := Option.map_eq_some_iff.mp solved
  obtain ⟨w, visited, finishes⟩ := Solver.run_some watched
  have heeds := visits_heeds made declared visited
  have behaves := chain_behaves sel made
  have begins := visited.begins (Chain.prompt declared) (Chain.opens declared behaves) behaves
    (Chain.blank_sane _ _)
  refine ⟨w, u, heeds, finishes, (heeds.finish finishes).1, fun x listed entry asked => ?_⟩
  rcases begins x listed entry asked with waits | starts
  · rw [finishes.queue] at waits
    cases waits
  · exact starts

theorem solved_initializes : t.Initializes p := by
  have stands := solved_stands made declared solved
  obtain ⟨w, u, heeds, finishes, facts, started⟩ := solved_starts made declared solved
  have listed : .initializers {} ∈ chain := by
    obtain ⟨_, _, _, rfl, _, _⟩ := chain_eq made
    simp
  -- whatever the initialisers ask for has started
  have given (past x rest) (cut : w.record = past ++ x :: rest) (m) (asked : .addEntryPoint { method := m } ∈
      (Initialized.react p (replay (fun e _ s => Initialized.react p s e) {} past) x.event).commands) :
      w.Starts m := by
    refine started x (by simp [cut]) { method := m } (Chain.asked_by heeds cut listed ?_)
    have commutes : ∀ e f s, Handler.react p e f (.initializers s) =
        (Initialized.react p s e).map .initializers := fun _ _ _ => rfl
    rw [replay_wrap commutes]
    exact asked
  intro c m reaches d needs e i extending declares
  obtain ⟨frame, _, found⟩ := stands.toLawful.found_of_reaches reaches
  obtain ⟨past, x, rest, cut, event⟩ := (heeds.chronicle finishes).registration (facts ▸ found)
  have initializes : i ∈ initializersOf p d :=
    Initialized.mem_initializersOf.mpr
      ⟨e, (Program.mem_superclasses (Program.lt_of_declared? declares)).mpr extending, declares⟩
  have starts : t.Starts i := facts ▸ Initialized.covers_needed given cut event d needs.mem i initializes
  obtain ⟨entry, entered, begins⟩ := starts
  exact ⟨⟨entry, entered, begins⟩, stands.toSettles.reaches stands.calls ⟨entry, begins⟩⟩

end Registry

/-- Static initialisation is ordered and complete. Requests for classes, in whatever order, run the
initialisers of these classes and of their superclasses, each once and after those above it. When an analysis
returns, the initialisers of all classes that reachable methods need have been started. Every run returns. -/
theorem Analysis.initialization_ordered {a : Analysis} {o : Options}
    (registered : a.registry = Registry.builtin) (sel : Selector) :
    (a.program.Acyclic → a.program.Housed → ∀ requests,
      Initialized.Ordered a.program requests (Initialized.initializeAll {} a.program requests).1
        (Initialized.initializeAll {} a.program requests).2) ∧
    (a.program.Scoped → ∀ r, a.solve o sel = .ok r → r.facts.Initializes a.program) ∧
    ∀ chain, a.registry.chain a.program o a.files = .ok chain → ∃ n, ∀ limit, n ≤ limit →
      ∃ r, { a with stepLimit := limit }.solve o sel = .ok r := by
  refine ⟨fun acyclic housed requests => ?_, fun declared r solved => ?_, fun chain made => ?_⟩
  · exact ((Initialized.Tracks.start a.program).initializeAll acyclic requests).ordered housed
  · obtain ⟨chain, t, made, run, rfl⟩ := solve_eq registered solved
    exact Registry.solved_initializes made declared run
  · rw [registered] at made
    exact solve_returns registered made sel

/-- A press and a lathe are machines; the program makes a press and reads a field of the lathe. -/
def plant : Program :=
  let p : Program := {}
  let p := p.addClass "java.lang.Object" none
  let p := p.addClass "Machine" (some 0)
  let p := p.addClass "Press" (some 1)
  let p := p.addClass "Lathe" (some 1)
  let p := p.addClass "Main" (some 0)
  let p := p.addField 3 "spare" (.cls 0) true
  let p := p.addMethod 1 "<clinit>" [] .void ⟨true, false, false⟩
  let p := p.addMethod 2 "<clinit>" [] .void ⟨true, false, false⟩
  let p := p.addMethod 3 "<clinit>" [] .void ⟨true, false, false⟩
  let p := p.addMethod 4 "main" [] .void ⟨true, false, false⟩
  let p := p.setBody 3
    { locals := [("press", .cls 2), ("spare", .cls 0)]
      stmts := [.new 0 (.cls 2), .loadStatic 1 0, .ret none]
      handlers := [] }
  p.setMain 3

theorem plant_built : plant.Built :=
  .setMain (.setBody (.addMethod (.addMethod (.addMethod (.addMethod (.addField (.addClass (.addClass
    (.addClass (.addClass (.addClass .empty _ _) _ _) _ _) _ _) _ _) _ _ _ _) _ _ _ _ _) _ _ _ _ _)
    _ _ _ _ _) _ _ _ _ _) _ _) _

theorem plant_acyclic : plant.Acyclic := Program.Acyclic.of_rank id (by decide)

def plantAnalysis : Except AnalysisError Result :=
  Analysis.solve { program := plant, files := { root := "" }, stepLimit := 100 } { implicitEntries := false }
    (.limited .insensitive)

/-- Three requests for machines run three initialisers, that of all machines first. The program needs the
press and the lathe, so all three are entry methods of its analysis. -/
theorem plant_initialization_ordered : ∃ r, plantAnalysis = .ok r ∧ plant.Acyclic ∧ plant.Housed ∧
    (Initialized.initializeAll {} plant [3, 2, 1]).2 = [0, 2, 1] ∧
    Initialized.Ordered plant [3, 2, 1] (Initialized.initializeAll {} plant [3, 2, 1]).1 [0, 2, 1] ∧
    r.facts.Reaches ContextTable.emptyId 3 ∧ ∀ i ∈ [0, 1, 2], r.facts.Starts i ∧
      r.facts.Reaches ContextTable.emptyId i := by
  obtain ⟨r, solved, listed⟩ : ∃ r, plantAnalysis = .ok r ∧ some (ContextTable.emptyId, 3) ∈
      r.facts.calls.reachable.map r.facts.elements.method? := Analysis.ok_of_decide (by decide +kernel)
  obtain ⟨id, reachable, known⟩ := List.mem_map.mp listed
  have reaches : r.facts.Reaches ContextTable.emptyId 3 := ⟨id, reachable, known⟩
  have log : (Initialized.initializeAll {} plant [3, 2, 1]).2 = [0, 2, 1] := by decide
  obtain ⟨ordered, complete, _⟩ := Analysis.initialization_ordered (o := { implicitEntries := false })
    (a := { program := plant, files := { root := "" }, stepLimit := 100 }) rfl (.limited .insensitive)
  have press : plant.Needs (StmtRef.mk 3 0).method 2 := .allocates rfl
  have lathe : plant.Needs (StmtRef.mk 3 1).method (FieldDecl.mk "spare" 3 (.cls 0) true).owner := .loads rfl rfl
  refine ⟨r, solved, plant_acyclic, plant_built.housed, log, ?_, reaches, fun i listed => ?_⟩
  · exact log ▸ ordered plant_acyclic plant_built.housed [3, 2, 1]
  · have initializes := complete (by decide) r solved _ _ reaches
    rcases List.mem_cons.mp listed with rfl | listed
    · exact initializes 2 press 1 0 ⟨1, rfl⟩ rfl
    · rcases List.mem_cons.mp listed with rfl | listed
      · exact initializes 2 press 2 1 ⟨0, rfl⟩ rfl
      · obtain rfl := List.mem_singleton.mp listed
        exact initializes 3 lathe 3 2 ⟨0, rfl⟩ rfl

end PointsTo
