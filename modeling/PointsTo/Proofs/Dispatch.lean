import PointsTo.Proofs.Hierarchy
import PointsTo.Proofs.Resolution

/-!
The two ways to find a method. Dispatch takes the nearest superclass that declares a method with code,
then asks the interfaces by their age, so that an older default hides one that overrides it. References
are searched for in the same order.
-/
namespace PointsTo

variable {f : Facts} {p : Program} {m : MethodId} {site : StmtRef}

namespace Program

variable {p : Program} {c d e : ClassId} {s : String} {m : MethodId} {classes : List ClassId} {r : MethodRef}

/-- A class is another one or extends it, directly or not; interfaces do not count. -/
def Extends (p : Program) (c d : ClassId) : Prop := ∃ k, p.climb? k c = some d

theorem mem_superclasses (inside : d < p.classes.size) : d ∈ p.superclasses c ↔ p.Extends c d := by
  rw [superclasses, mem_superChain]
  constructor
  · rintro ⟨k, _, climbs⟩
    exact ⟨k, climbs⟩
  · rintro ⟨_, climbs⟩
    exact climb?_bounded climbs inside

def hasCode (p : Program) (s : String) (c : ClassId) : Bool :=
  (p.declared? c s).any fun m => !p.isAbstract m

theorem hasCode_iff : p.hasCode s c = true ↔ ∃ m, p.declared? c s = some m ∧ p.isAbstract m = false := by
  simp [hasCode, Option.any_eq_true]

theorem lt_of_hasCode (code : p.hasCode s c = true) : c < p.classes.size := by
  obtain ⟨_, declares, _⟩ := hasCode_iff.mp code
  exact lt_of_declared? declares

theorem declares_of_declared? (declares : p.declared? c s = some m) :
    ∃ decl method, p.classes[c]? = some decl ∧ m ∈ decl.methods ∧ p.methods[m]? = some method ∧
      method.subsignature = s := by
  unfold declared? at declares
  split at declares
  · next decl known =>
    have listed := List.mem_reverse.mp (List.mem_of_find?_eq_some declares)
    have spelled := List.find?_some declares
    split at spelled
    · next method found => exact ⟨decl, method, known, listed, found, beq_iff_eq.mp spelled⟩
    · cases spelled
  · cases declares

def interfacesAbove (p : Program) (c : ClassId) : List ClassId :=
  ((p.supertypes c).filter p.isInterface).mergeSort (· ≤ ·)

theorem mem_interfacesAbove : d ∈ p.interfacesAbove c ↔ p.Below c d ∧ p.isInterface d = true := by
  simp [interfacesAbove, mem_supertypes]

theorem interfacesAbove_ordered : (p.interfacesAbove c).Pairwise (· ≤ ·) := by
  have ordered : (p.interfacesAbove c).Pairwise fun a b => decide (a ≤ b) = true := by
    refine List.pairwise_mergeSort (fun a b d ab bd => ?_) (fun a b => ?_) _
    · exact decide_eq_true (Nat.le_trans (of_decide_eq_true ab) (of_decide_eq_true bd))
    · simpa using Nat.le_total a b
  exact ordered.imp of_decide_eq_true

/-- Where dispatch finds a method: in the first of the superclasses that has one, or, if none has, in the
first of the interfaces. -/
def FoundIn (p : Program) (c : ClassId) (s : String) (d : ClassId) : Prop :=
  (p.superclasses c).find? (p.hasCode s) = some d ∨
    (p.superclasses c).find? (p.hasCode s) = none ∧ (p.interfacesAbove c).find? (p.hasCode s) = some d

theorem foundIn_iff : p.FoundIn c s d ↔
    ((p.superclasses c).find? (p.hasCode s)).or ((p.interfacesAbove c).find? (p.hasCode s)) = some d :=
  Option.or_eq_some_iff.symm

theorem FoundIn.hasCode (found : p.FoundIn c s d) : p.hasCode s d = true := by
  rcases found with found | ⟨_, found⟩
  · exact List.find?_some found
  · exact List.find?_some found

theorem find?_declared (classes : List ClassId) :
    (classes.filterMap fun d => p.declared? d s).find? (fun m => !p.isAbstract m) =
      (classes.find? (p.hasCode s)).bind fun d => p.declared? d s := List.find?_filterMap

theorem dispatch?_eq : p.dispatch? c s =
    (((p.superclasses c).find? (p.hasCode s)).or ((p.interfacesAbove c).find? (p.hasCode s))).bind
      fun d => p.declared? d s := by
  unfold dispatch? chainMethods interfaceMethods
  rw [find?_declared, find?_declared]
  cases found : (p.superclasses c).find? (p.hasCode s) with
  | none => rfl
  | some d =>
    obtain ⟨m, declares, _⟩ := hasCode_iff.mp (List.find?_some found)
    simp [declares]

theorem dispatch?_eq_some : p.dispatch? c s = some m ↔ ∃ d, p.FoundIn c s d ∧ p.declared? d s = some m := by
  rw [dispatch?_eq, Option.bind_eq_some_iff]
  simp only [foundIn_iff]

theorem FoundIn.concrete (found : p.FoundIn c s d) (declares : p.declared? d s = some m) :
    p.isAbstract m = false := by
  obtain ⟨_, same, concrete⟩ := hasCode_iff.mp found.hasCode
  cases same.symm.trans declares
  exact concrete

theorem FoundIn.below (found : p.FoundIn c s d) : p.Below c d := by
  rcases found with found | ⟨_, found⟩
  · exact superclasses_below (List.mem_of_find?_eq_some found)
  · exact (mem_interfacesAbove.mp (List.mem_of_find?_eq_some found)).1

theorem dispatch?_eq_none : p.dispatch? c s = none ↔
    ∀ d, p.Extends c d ∨ (p.Below c d ∧ p.isInterface d = true) → p.hasCode s d = false := by
  have absent : p.dispatch? c s = none ↔ (p.superclasses c).find? (p.hasCode s) = none ∧
      (p.interfacesAbove c).find? (p.hasCode s) = none := by
    rw [← Option.or_eq_none_iff, dispatch?_eq, Option.bind_eq_none_iff]
    constructor
    · intro undeclared
      by_contra some
      obtain ⟨d, found⟩ := Option.ne_none_iff_exists'.mp some
      obtain ⟨m, declares, _⟩ := hasCode_iff.mp (foundIn_iff.mpr found).hasCode
      cases (undeclared d found).symm.trans declares
    · intro none d found
      cases none.symm.trans found
  rw [absent, List.find?_eq_none, List.find?_eq_none]
  simp only [Bool.not_eq_true, mem_interfacesAbove]
  constructor
  · rintro ⟨chain, interfaces⟩ d (extending | above)
    -- a superclass that is not declared has no place on the chain, but no code either
    · by_contra code
      rw [Bool.not_eq_false] at code
      have free := chain d ((mem_superclasses (lt_of_hasCode code)).mpr extending)
      cases free.symm.trans code
    · exact interfaces d above
  · intro none
    refine ⟨fun d member => none d (Or.inl ?_), fun d above => none d (Or.inr above)⟩
    obtain ⟨k, _, climbs⟩ := mem_superChain.mp member
    exact ⟨k, climbs⟩

/-- Dispatch comes to one class before another: to superclasses before all others, and to interfaces
by age. -/
def Precedes (p : Program) (c e d : ClassId) : Prop :=
  p.Extends c e ∨ (¬ p.Extends c d ∧ p.isInterface e = true ∧ e < d)

/-- Whoever overrides a method with code comes before the class whose method it is. -/
def SpecificFirst (p : Program) (c : ClassId) (s : String) : Prop :=
  ∀ d e, p.Below c d → p.Below c e → p.StrictlyBelow e d → p.hasCode s d = true → p.hasCode s e = true →
    p.Precedes c e d

theorem related_of_find? {R : ClassId → ClassId → Prop} {q : ClassId → Bool} (ordered : classes.Pairwise R)
    (found : classes.find? q = some d) (member : e ∈ classes) (holds : q e = true) : e = d ∨ R d e := by
  obtain ⟨_, before, after, rfl, others⟩ := List.find?_eq_some_iff_append.mp found
  rcases List.mem_append.mp member with earlier | later
  · have fails := others e earlier
    rw [holds] at fails
    cases fails
  · rcases List.mem_cons.mp later with rfl | behind
    · exact Or.inl rfl
    · exact Or.inr (List.rel_of_pairwise_cons (List.pairwise_append.mp ordered).2.1 behind)

theorem FoundIn.not_precedes (acyclic : p.Acyclic) (found : p.FoundIn c s d) (above : p.Below c e)
    (below : p.StrictlyBelow e d) (code : p.hasCode s e = true) : ¬ p.Precedes c e d := by
  have different : e ≠ d := fun same => acyclic d (same ▸ below)
  have inside := lt_of_hasCode code
  rcases found with found | ⟨none, found⟩
  -- found on the chain of superclasses, which climbs: whoever has code comes later, hence above
  · rintro (extending | ⟨apart, _⟩)
    · have member := (mem_superclasses inside).mpr extending
      rcases related_of_find? superChain_pairwise found member code with same | back
      · exact different same
      · exact acyclic.not_below below back
    · exact apart ((mem_superclasses (lt_of_hasCode (List.find?_some found))).mp
        (List.mem_of_find?_eq_some found))
  -- found among the interfaces, which are sorted by age
  · rintro (extending | ⟨_, interfaced, younger⟩)
    · exact List.find?_eq_none.mp none e ((mem_superclasses inside).mpr extending) code
    · have member := mem_interfacesAbove.mpr ⟨above, interfaced⟩
      rcases related_of_find? interfacesAbove_ordered found member code with same | older
      · exact different same
      · exact Nat.not_le_of_gt younger older

/-- Dispatch finds a method with code that a class at or above the receiver's declares, and finds one whenever
a superclass or an interface above has one. A class in between that overrides the method is passed over
only if dispatch does not come to it first, and never where overriders come first. -/
theorem dispatch_overrides (acyclic : p.Acyclic) (c : ClassId) (s : String) :
    (∀ m, p.dispatch? c s = some m → ∃ d decl method, p.Below c d ∧ p.classes[d]? = some decl ∧
      m ∈ decl.methods ∧ p.methods[m]? = some method ∧ method.subsignature = s ∧ p.isAbstract m = false ∧
      (∀ e, p.Below c e → p.StrictlyBelow e d → p.hasCode s e = true → ¬ p.Precedes c e d) ∧
      (p.SpecificFirst c s → ∀ e, p.Below c e → p.StrictlyBelow e d → p.hasCode s e = false)) ∧
    (p.dispatch? c s = none ↔
      ∀ d, p.Extends c d ∨ (p.Below c d ∧ p.isInterface d = true) → p.hasCode s d = false) := by
  refine ⟨fun m finds => ?_, dispatch?_eq_none⟩
  obtain ⟨d, found, declares⟩ := dispatch?_eq_some.mp finds
  obtain ⟨decl, method, known, listed, present, spelled⟩ := declares_of_declared? declares
  have skipped := fun e above below code => found.not_precedes (e := e) acyclic above below code
  refine ⟨d, decl, method, found.below, known, listed, present, spelled, found.concrete declares, skipped, ?_⟩
  intro first e above below
  by_contra code
  rw [Bool.not_eq_false] at code
  exact skipped e above below code (first d e found.below above below found.hasCode code)

/-- Two interfaces with a default for the same method, one below the other, and a class below both. The
interfaces stand in either order. -/
def figures (shape round : ClassId) : Program where
  classes :=
    let upper : ClassDecl := ⟨"Shape", none, [], true, true, true, [0], []⟩
    let lower : ClassDecl := ⟨"Round", none, [shape], true, true, true, [1], []⟩
    #[⟨"Object", none, [], false, false, true, [], []⟩] ++
      (if shape < round then #[upper, lower] else #[lower, upper]) ++
      #[⟨"Disk", some 0, [1, 2], false, false, true, [], []⟩]
  methods := #[
    { name := "draw", owner := shape, params := [], ret := .void, flags := ⟨false, false, false⟩
      subsignature := "void draw()", body := none },
    { name := "draw", owner := round, params := [], ret := .void, flags := ⟨false, false, false⟩
      subsignature := "void draw()", body := none }]

theorem interfacesAbove_of_sorted (above : (p.supertypes c).filter p.isInterface = classes)
    (sorted : classes.Pairwise fun a b => decide (a ≤ b) = true) : p.interfacesAbove c = classes := by
  rw [interfacesAbove, above]
  exact List.mergeSort_of_pairwise sorted

theorem figures_found {shape round found : ClassId}
    (above : ((figures shape round).supertypes 3).filter (figures shape round).isInterface = [1, 2])
    (chain : ((figures shape round).superclasses 3).find? ((figures shape round).hasCode "void draw()") = none)
    (first : [1, 2].find? ((figures shape round).hasCode "void draw()") = some found) :
    (figures shape round).FoundIn 3 "void draw()" found := by
  refine Or.inr ⟨chain, ?_⟩
  rw [interfacesAbove_of_sorted above (by decide)]
  exact first

/-- With the lower interface first, the class executes the default that overrides the other one. -/
theorem figures_specific : (figures 2 1).Acyclic ∧ (figures 2 1).SpecificFirst 3 "void draw()" ∧
    (figures 2 1).dispatch? 3 "void draw()" = some 1 ∧ ∃ d, (figures 2 1).Below 3 d ∧
      (∀ e, (figures 2 1).Below 3 e → (figures 2 1).StrictlyBelow e d →
        (figures 2 1).hasCode "void draw()" e = false) := by
  have acyclic : (figures 2 1).Acyclic := .of_rank (fun c => [0, 1, 0, 2].getD c 0) (by decide +kernel)
  have dispatched : (figures 2 1).dispatch? 3 "void draw()" = some 1 :=
    dispatch?_eq_some.mpr ⟨1, figures_found (by decide +kernel) (by decide +kernel) (by decide +kernel),
      by decide +kernel⟩
  have code : ∀ c, (figures 2 1).hasCode "void draw()" c = true → c = 1 ∨ c = 2 := by
    intro c has
    have inside := lt_of_hasCode has
    have each : ∀ c < 4, (figures 2 1).hasCode "void draw()" c = true → c = 1 ∨ c = 2 := by decide +kernel
    exact each c inside has
  have specific : (figures 2 1).SpecificFirst 3 "void draw()" := by
    intro d e _ _ below upper lower
    have top : ∀ b, ¬ (figures 2 1).Inherits 2 b := by
      intro b inherits
      have none : (figures 2 1).directSupertypes 2 = [] := by decide +kernel
      simp [Inherits, none] at inherits
    have not_top : e ≠ 2 := by
      rintro rfl
      obtain ⟨b, first, _⟩ := Relation.TransGen.head'_iff.mp below
      exact top b first
    have e_eq : e = 1 := (code e lower).resolve_right not_top
    have d_eq : d = 2 := (code d upper).resolve_left fun same => acyclic 1 (by rwa [same, e_eq] at below)
    subst e_eq d_eq
    refine Or.inr ⟨fun extending => ?_, by decide +kernel, by decide⟩
    have member := (mem_superclasses (by decide +kernel)).mpr extending
    exact absurd member (by decide +kernel)
  obtain ⟨d, _, _, above, _, _, _, _, _, _, none⟩ := (dispatch_overrides acyclic 3 "void draw()").1 1 dispatched
  exact ⟨acyclic, specific, dispatched, d, above, none specific⟩

/-- With the upper interface first, its default hides the one that overrides it. -/
theorem figures_hidden : (figures 1 2).Acyclic ∧ (figures 1 2).dispatch? 3 "void draw()" = some 0 ∧
    (figures 1 2).declared? 1 "void draw()" = some 0 ∧ (figures 1 2).Below 3 2 ∧
    (figures 1 2).StrictlyBelow 2 1 ∧ (figures 1 2).hasCode "void draw()" 2 = true := by
  refine ⟨.of_rank id (by decide +kernel), dispatch?_eq_some.mpr ⟨1, ?_, by decide +kernel⟩, by decide +kernel,
    .single (by unfold Inherits; decide +kernel), .single (by unfold Inherits; decide +kernel), by decide +kernel⟩
  exact figures_found (by decide +kernel) (by decide +kernel) (by decide +kernel)

theorem find?_of_head? {methods : List MethodId} (first : methods.head? = some m)
    (concrete : p.isAbstract m = false) : methods.find? (fun m => !p.isAbstract m) = some m := by
  obtain ⟨rest, rfl⟩ := List.head?_eq_some_iff.mp first
  simp [concrete]

theorem dispatch?_of_resolve? (resolves : p.resolve? r = some m) (concrete : p.isAbstract m = false) :
    p.dispatch? r.owner r.subsignature = some m := by
  unfold resolve? at resolves
  unfold dispatch?
  split at resolves
  · next first =>
    cases resolves
    rw [find?_of_head? first concrete]
  · next none =>
    rw [List.head?_eq_none_iff.mp none, List.find?_nil]
    exact find?_of_head? resolves concrete

theorem resolve?_of_dispatch? (dispatches : p.dispatch? r.owner r.subsignature = some m) :
    ∃ n, p.resolve? r = some n := by
  rw [← Option.isSome_iff_exists, Option.isSome_iff_ne_none]
  intro unresolved
  unfold resolve? at unresolved
  split at unresolved
  · cases unresolved
  · next none =>
    simp [dispatch?, List.head?_eq_none_iff.mp none, List.head?_eq_none_iff.mp unresolved] at dispatches

/-- A reference means a declaration without code. -/
def MeansAbstract (p : Program) (r : MethodRef) : Prop := ∃ m, p.resolve? r = some m ∧ p.isAbstract m = true

theorem dispatch?_eq_resolve?_iff : p.dispatch? r.owner r.subsignature = p.resolve? r ↔ ¬ p.MeansAbstract r := by
  constructor
  · rintro same ⟨m, resolves, withoutCode⟩
    rw [resolves] at same
    obtain ⟨d, found, declares⟩ := dispatch?_eq_some.mp same
    cases (found.concrete declares).symm.trans withoutCode
  · intro concrete
    cases resolves : p.resolve? r with
    | some m =>
      refine dispatch?_of_resolve? resolves (Bool.eq_false_iff.mpr fun withoutCode => ?_)
      exact concrete ⟨m, resolves, withoutCode⟩
    | none =>
      by_contra dispatches
      obtain ⟨m, dispatches⟩ := Option.ne_none_iff_exists'.mp dispatches
      obtain ⟨n, other⟩ := resolve?_of_dispatch? dispatches
      cases resolves.symm.trans other

end Program

/-- A call in a reachable method names the method, whatever its receiver holds. -/
def Facts.NamesAt (f : Facts) (p : Program) (m : MethodId) (site : StmtRef) : Prop :=
  (∃ c, f.Reaches c site.method) ∧ ∃ call, p.invoke? site = some call ∧ p.resolve? call.target = some m

theorem Facts.namesAt_iff {call : Invoke} (known : p.invoke? site = some call) :
    f.NamesAt p m site ↔ (∃ c, f.Reaches c site.method) ∧ p.resolve? call.target = some m := by
  simp [NamesAt, known]

theorem Facts.mem_namedSitesOf : site ∈ f.namedSitesOf p m ↔ f.NamesAt p m site := by
  constructor
  · intro listed
    obtain ⟨id, reachable, member⟩ := List.mem_flatMap.mp listed
    split at member
    · cases member
    · next c caller method =>
      obtain ⟨⟨place, stmt⟩, listed, names⟩ := List.mem_filterMap.mp member
      dsimp only at names
      split at names
      · next call invokes =>
        obtain ⟨resolves, same⟩ := Option.ite_none_right_eq_some.mp names
        cases same
        obtain ⟨rfl, there⟩ := Program.mem_stmtRefs.mp listed
        exact ⟨⟨c, id, reachable, method⟩, call, by rw [Program.invoke?, there]; exact invokes, resolves⟩
      · cases names
  · rintro ⟨⟨c, id, reachable, method⟩, call, known, resolves⟩
    obtain ⟨stmt, there, invokes⟩ := Option.bind_eq_some_iff.mp known
    refine List.mem_flatMap.mpr ⟨id, reachable, ?_⟩
    rw [method]
    refine List.mem_filterMap.mpr ⟨(site, stmt), Program.mem_stmtRefs.mpr ⟨rfl, there⟩, ?_⟩
    dsimp only
    rw [invokes]
    exact if_pos resolves

theorem Facts.Records.mem_callSitesOf {kind : InvokeKind} {c : ContextId}
    (records : f.Records (.ofInvoke kind) c site m) : site ∈ f.callSitesOf m := by
  obtain ⟨e, recorded, same, place, d, method⟩ := records
  have named : e.kind ≠ .other := by
    rw [same]
    cases kind <;> exact CallKind.noConfusion
  exact List.mem_filterMap.mpr ⟨e, recorded, by simp [named, method, place]⟩

/-- On a receiver of the class that a reference names, everyone who looks the method up finds the same one. -/
structure Program.Agrees (p : Program) (r : MethodRef) : Prop where
  /-- Calls of all kinds, special and virtual ones among them. -/
  calls : ∀ call : Invoke, call.target = r → p.callee? call (.cls r.owner) = p.resolve? r
  /-- The models of native methods and of reflection. -/
  models : ∀ {κ : Type} (t : CallModels κ) (site : StmtRef) (call : Invoke), p.invoke? site = some call →
    call.target = r → t.callAt? p site =
      ((p.callee? call (.cls r.owner)).bind t.model?).map fun key => ⟨site, key, call⟩
  /-- Sinks, where they are watched at the calls that name them. -/
  sinks : ∀ (f : Facts) (m : MethodId) (site : StmtRef) (call : Invoke), p.invoke? site = some call →
    call.target = r →
      (site ∈ f.namedSitesOf p m ↔ (∃ c, f.Reaches c site.method) ∧ p.callee? call (.cls r.owner) = some m)
  /-- The solver: the call is recorded where the models and the sinks expect it. -/
  solver : ∀ {o : Options} {files : FileTree} {chain : Chain} {sel : Selector} {fuel : Nat} {t : State Chain},
    Registry.builtin.chain p o files = .ok chain → p.Scoped →
    Solver.solve ⟨p, sel, Chain.handlers p⟩ fuel (Heap.ofProgram p o.mergeStrings) chain = some t →
    ∀ {c : ContextId} {site : StmtRef} {call : Invoke} {receiver : CsObjId} {obj : Obj} {m : MethodId},
      t.Performs p c site call (some receiver) → t.obj? receiver = some obj → obj.ty = .cls r.owner →
      call.target = r → p.resolve? r = some m →
        t.Records (.ofInvoke call.kind) c site m ∧ site ∈ t.callSitesOf m ∧ site ∈ t.namedSitesOf p m

namespace Program

variable {p : Program} {r : MethodRef}

theorem callee?_eq_resolve? (same : p.dispatch? r.owner r.subsignature = p.resolve? r) {call : Invoke}
    (names : call.target = r) : p.callee? call (.cls r.owner) = p.resolve? r := by
  subst names
  unfold callee?
  split
  · exact same
  · rfl

theorem Agrees.of_dispatch? (same : p.dispatch? r.owner r.subsignature = p.resolve? r) : p.Agrees r where
  calls := fun _ names => callee?_eq_resolve? same names
  models := by
    intro κ t site call known names
    rw [CallModels.callAt?, known, callee?_eq_resolve? same names, ← names]
  sinks := by
    intro f m site call known names
    rw [Facts.mem_namedSitesOf, Facts.namesAt_iff known, callee?_eq_resolve? same names, names]
  solver := by
    intro o files chain sel fuel t made declared solved c site call receiver obj m performs object type names
      resolves
    have target : t.target? p call (some receiver) = some m := by
      rw [Facts.target?, object, Option.bind_some, type, callee?_eq_resolve? same names, resolves]
    have records := (Registry.solved_stands made declared solved).records (fun _ => not_false) performs target
    have reaches : ∃ c, t.Reaches c site.method := by
      cases performs with
      | on reaches => exact ⟨c, reaches⟩
    refine ⟨records, records.mem_callSitesOf, ?_⟩
    exact Facts.mem_namedSitesOf.mpr ⟨reaches, call, invoke?_of_stmt? performs.stmt, names ▸ resolves⟩

/-- The method with code that a reference means is the one that objects of the class it names execute, and
where they execute some method the reference means some method. So all lookups agree, unless the reference
means a declaration without code. -/
theorem lookups_agree (p : Program) (r : MethodRef) :
    (∀ m, p.resolve? r = some m → p.isAbstract m = false → p.dispatch? r.owner r.subsignature = some m) ∧
    (∀ m, p.dispatch? r.owner r.subsignature = some m → ∃ n, p.resolve? r = some n) ∧
    (p.Agrees r ↔ ¬ p.MeansAbstract r) := by
  refine ⟨fun _ => dispatch?_of_resolve?, fun _ => resolve?_of_dispatch?, ?_⟩
  rw [← dispatch?_eq_resolve?_iff]
  constructor
  · intro agrees
    -- a virtual call is dispatched on its receiver
    exact agrees.calls ⟨.virtual, r, none, [], none⟩ rfl
  · exact Agrees.of_dispatch?

end Program

end PointsTo
