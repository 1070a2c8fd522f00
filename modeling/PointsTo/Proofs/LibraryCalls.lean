import PointsTo.Proofs.Dispatch
import PointsTo.Proofs.Refinement

/-!
What calls of library methods amount to when a run is over: native methods have moved all that they can
move, the current thread may be any that was started, and reflection has run the initialisers and
constructors it leads to.
-/
namespace PointsTo

variable {r : Result}

/-- A signature that is spelled as lookups compare it. -/
def Tidy (signature : String) : Prop := normalizeSignature signature = signature

/-- It is enough to look at the characters. Evaluating `String.toList` on a literal is far slower than this. -/
theorem Tidy.of_chars {signature : String} {l : List Char} (spelled : signature = String.ofList l)
    (tidy : normalizeChars (Text.trimChars l) = l) : Tidy signature := by
  unfold Tidy
  rw [spelled, normalizeSignature, String.toList_ofList, tidy]

namespace Program

variable {p : Program} {signature other : String} {m : MethodId}

theorem methodBySignature?_eq (tidy : Tidy signature) : p.methodBySignature? signature =
    lastIdx? (fun d => p.refSignature ⟨d.owner, d.subsignature⟩ == signature) p.methods.toList := by
  unfold methodBySignature?
  rw [tidy]

theorem methodBySignature?_spelled (tidy : Tidy signature) (found : p.methodBySignature? signature = some m) :
    ∃ decl, p.methods[m]? = some decl ∧ p.refSignature ⟨decl.owner, decl.subsignature⟩ = signature := by
  rw [methodBySignature?_eq tidy] at found
  obtain ⟨decl, known, spelled⟩ := lastIdx?_holds found
  exact ⟨decl, by simpa using known, beq_iff_eq.mp spelled⟩

theorem eq_of_methodBySignature? (tidy : Tidy signature) (tidy' : Tidy other)
    (found : p.methodBySignature? signature = some m) (again : p.methodBySignature? other = some m) :
    signature = other := by
  obtain ⟨decl, known, spelled⟩ := methodBySignature?_spelled tidy found
  obtain ⟨decl', known', spelled'⟩ := methodBySignature?_spelled tidy' again
  cases known.symm.trans known'
  exact spelled.symm.trans spelled'

/-- A statement calls the method with a signature. -/
structure Invokes (p : Program) (site : StmtRef) (signature : String) (call : Invoke) : Prop where
  stmt : p.stmt? site = some (.invoke call)
  resolved : ∃ m, p.methodBySignature? signature = some m ∧ p.resolve? call.target = some m

theorem Invokes.of_tidy {site : StmtRef} {call : Invoke} (tidy : Tidy signature)
    (stmt : p.stmt? site = some (.invoke call))
    (found : lastIdx? (fun d => p.refSignature ⟨d.owner, d.subsignature⟩ == signature) p.methods.toList = some m)
    (resolved : p.resolve? call.target = some m) : p.Invokes site signature call :=
  ⟨stmt, m, (methodBySignature?_eq tidy).trans found, resolved⟩

end Program

namespace CallModels

variable {κ : Type} {p : Program} {models : List (String × κ)} {signature : String} {key : κ} {m : MethodId}
  {site : StmtRef} {call : Invoke}

theorem mem_table {x : MethodId × κ} : x ∈ (ofProgram p models).table ↔
    ∃ s ∈ models, p.methodBySignature? s.1 = some x.1 ∧ s.2 = x.2 := by
  simp only [ofProgram, List.mem_filterMap, Option.map_eq_some_iff, Prod.ext_iff]
  constructor
  · rintro ⟨s, listed, n, found, rfl, same⟩
    exact ⟨s, listed, found, same⟩
  · rintro ⟨s, listed, found, same⟩
    exact ⟨s, listed, x.1, found, rfl, same⟩

theorem ofProgram_eq (tidy : ∀ s ∈ models, Tidy s.1) : ofProgram p models = { table := models.filterMap fun s =>
    (lastIdx? (fun d => p.refSignature ⟨d.owner, d.subsignature⟩ == s.1) p.methods.toList).map (·, s.2) } := by
  refine congrArg (CallModels.mk · []) (List.filterMap_congr fun s listed => ?_)
  rw [← Program.methodBySignature?_eq (tidy s listed)]

theorem model?_of_signature (tidy : ∀ s ∈ models, Tidy s.1) (apart : (models.map (·.1)).Nodup)
    (listed : (signature, key) ∈ models) (found : p.methodBySignature? signature = some m) :
    (ofProgram p models).model? m = some key := by
  have member : (m, key) ∈ (ofProgram p models).table := mem_table.mpr ⟨_, listed, found, rfl⟩
  unfold model?
  cases first : (ofProgram p models).table.reverse.find? fun x => x.1 == m with
  | none =>
    have absent := List.find?_eq_none.mp first (m, key) (List.mem_reverse.mpr member)
    simp at absent
  | some x =>
    have same : x.1 = m := by simpa using List.find?_some first
    obtain ⟨s, listed', found', key'⟩ := mem_table.mp (List.mem_reverse.mp (List.mem_of_find?_eq_some first))
    rw [same] at found'
    have signatures := Program.eq_of_methodBySignature? (tidy s listed') (tidy _ listed) found' found
    rw [List.inj_on_of_nodup_map apart listed' listed signatures] at key'
    exact congrArg some key'.symm

theorem models_of_invokes (tidy : ∀ s ∈ models, Tidy s.1) (apart : (models.map (·.1)).Nodup)
    (listed : (signature, key) ∈ models) (invokes : p.Invokes site signature call) :
    (ofProgram p models).Models p ⟨site, key, call⟩ := by
  obtain ⟨m, found, resolved⟩ := invokes.resolved
  have calls : p.invoke? site = some call := by simp [Program.invoke?, invokes.stmt, Stmt.invoke?]
  simp only [Models, callAt?, calls, resolved, Option.bind_some, model?_of_signature tidy apart listed found,
    Option.map_some]

end CallModels

theorem NativeModel.table_tidy : ∀ s ∈ table, Tidy s.1 := by
  simp only [table, List.forall_mem_cons]
  refine ⟨?_, ?_, ?_, nofun⟩
  all_goals exact .of_chars rfl (by decide)

theorem NativeModel.table_apart : (table.map (·.1)).Nodup := by decide

theorem ReflectionModel.table_tidy : ∀ s ∈ table, Tidy s.1 := by
  simp only [table, List.forall_mem_cons]
  refine ⟨?_, ?_, ?_, ?_, ?_, nofun⟩
  all_goals exact .of_chars rfl (by decide)

theorem ReflectionModel.table_apart : (table.map (·.1)).Nodup := by decide

namespace Natives

def arraycopySignature : String :=
  "<java.lang.System: void arraycopy(java.lang.Object,int,java.lang.Object,int,int)>"

def copyOfSignature : String := "<java.util.Arrays: java.lang.Object[] copyOf(java.lang.Object[],int)>"

def cloneSignature : String := "<java.lang.Object: java.lang.Object clone()>"

theorem arraycopy_listed : (arraycopySignature, .arrayCopy) ∈ NativeModel.table := by
  simp [NativeModel.table, arraycopySignature]

theorem copyOf_listed : (copyOfSignature, .copyOf) ∈ NativeModel.table := by
  simp [NativeModel.table, copyOfSignature]

theorem clone_listed : (cloneSignature, .clone) ∈ NativeModel.table := by
  simp [NativeModel.table, cloneSignature]

def nativeArray (site : StmtRef) (ty : Ty) : Item := ⟨[], Obj.mockIn .native (.stmt site) ty site.method⟩

/-- All objects that native methods move have been moved. -/
structure Moved (p : Program) (holds : Fact → Prop) : Prop where
  /-- The elements of all arrays at the first argument are elements of all arrays at the third one. -/
  arraycopy : ∀ c site call, holds (.reached c site.method) → p.Invokes site arraycopySignature call →
    ∀ source start target rest, call.args = source :: start :: target :: rest → ∀ i j k,
      holds (.points (.var c source) i) → holds (.points (.var c target) j) →
      holds (.points (.element i) k) → holds (.points (.element j) k)
  copyOf : ∀ c site call, holds (.reached c site.method) → p.Invokes site copyOfSignature call →
    ∀ result, call.result = some result → ∃ m decl, p.resolve? call.target = some m ∧
      p.methods[m]? = some decl ∧ holds (.points (.var c result) (nativeArray site decl.ret)) ∧
      ∀ source, call.args.head? = some source → ∀ i k, holds (.points (.var c source) i) →
        holds (.points (.element i) k) → holds (.points (.element (nativeArray site decl.ret)) k)
  clone : ∀ c site call, holds (.reached c site.method) → p.Invokes site cloneSignature call →
    ∀ base result, call.base = some base → call.result = some result → ∀ i,
      holds (.points (.var c base) i) → holds (.points (.var c result) i)

theorem Satisfied.moved {p : Program} {holds : Fact → Prop} (satisfied : (ofProgram p).Satisfied p holds) :
    Moved p holds where
  arraycopy := by
    intro c site call _ invokes source start target rest args i j k from_ to_ element
    have models := CallModels.models_of_invokes NativeModel.table_tidy NativeModel.table_apart arraycopy_listed
      invokes
    exact satisfied.crossed _ models rfl source target (by simp [args]) (by simp [args]) c i j k from_ to_ element
  copyOf := by
    intro c site call reached invokes result answer
    have models := CallModels.models_of_invokes NativeModel.table_tidy NativeModel.table_apart copyOf_listed
      invokes
    obtain ⟨m, found, resolved⟩ := invokes.resolved
    obtain ⟨decl, known, _⟩ := Program.methodBySignature?_spelled (NativeModel.table_tidy _ copyOf_listed) found
    have made : copyObj? p ⟨site, .copyOf, call⟩ = some (nativeArray site decl.ret).obj := by
      simp [copyObj?, resolved, known, nativeArray]
    refine ⟨m, decl, resolved, known, satisfied.copies _ models rfl _ made result answer c reached, ?_⟩
    intro source first i k held element
    exact satisfied.copied _ models rfl _ made source first c i k held element
  clone := by
    intro c site call reached invokes base result on answer i held
    have models := CallModels.models_of_invokes NativeModel.table_tidy NativeModel.table_apart clone_listed
      invokes
    exact satisfied.cloned _ models rfl base result on answer c i reached held

end Natives

namespace Registry

variable {p : Program} {o : Options} {files : FileTree} {chain : Chain}

theorem natives_mem (made : builtin.chain p o files = .ok chain) : .natives (Natives.ofProgram p) ∈ chain := by
  obtain ⟨_, _, _, rfl, _, _⟩ := chain_eq made
  simp

theorem threads_mem (made : builtin.chain p o files = .ok chain) :
    .threads { methods := ThreadMethods.ofProgram p o } ∈ chain := by
  obtain ⟨_, _, _, rfl, _, _⟩ := chain_eq made
  simp

theorem reflection_mem (made : builtin.chain p o files = .ok chain) (reflects : o.reflection = true) :
    .reflection (Reflection.ofProgram p) ∈ chain := by
  obtain ⟨_, _, _, rfl, _, _⟩ := chain_eq made
  simp [reflects]

end Registry

/-- What holds of every run without taint: it starts with the entry methods and keeps to the inclusion rules. -/
theorem Analysis.solve_obeys {a : Analysis} {o : Options} {sel : Selector}
    (registered : a.registry = Registry.builtin) (untainted : o.taintConfig = none) (declared : a.program.Scoped)
    (solved : a.solve o sel = .ok r) :
    (∀ m ∈ (Entries.ofOptions a.program o).entries, r.facts.Found (.reached [] m)) ∧
      Closed (Rule a.program sel (HeapRules.ofProgram a.program o.mergeStrings)) r.facts.Found := by
  obtain ⟨chain, t, made, run, rfl⟩ := solve_eq registered solved
  obtain ⟨_, closed, satisfied⟩ := Registry.solved_satisfied made untainted declared run
  have listed : .entries (Entries.ofOptions a.program o) ∈ chain := by
    obtain ⟨_, _, _, rfl, _, _⟩ := Registry.chain_eq made
    simp
  have entries : (Entries.ofOptions a.program o).Satisfied a.program t.Found := satisfied _ listed
  exact ⟨fun m entry => entries.entries m entry _ .reached, closed⟩

/-- Native methods are closed. When an analysis returns, all objects that native methods move have been
moved, in whatever order arrays and their elements were found. Every run returns. -/
theorem Analysis.natives_closed {a : Analysis} {o : Options} (registered : a.registry = Registry.builtin)
    (untainted : o.taintConfig = none) (declared : a.program.Scoped) (sel : Selector) :
    (∀ r, a.solve o sel = .ok r → r.facts.Spelled ∧ Natives.Moved a.program r.facts.Found) ∧
    ∀ chain, a.registry.chain a.program o a.files = .ok chain → ∃ n, ∀ limit, n ≤ limit →
      ∃ r, { a with stepLimit := limit }.solve o sel = .ok r := by
  refine solve_spec registered sel fun chain t made run => ?_
  obtain ⟨spelled, _, satisfied⟩ := Registry.solved_satisfied made untainted declared run
  exact ⟨spelled, Natives.Satisfied.moved (satisfied _ (Registry.natives_mem made))⟩

/-- An array with a thing in it and an empty one are copied to each other, through one variable for both; the
first one is then copied and cloned. -/
def archive : Program :=
  let p : Program := {}
  let p := p.addClass "java.lang.Object" none
  let p := p.addClass "java.lang.System" (some 0)
  let p := p.addClass "java.util.Arrays" (some 0)
  let p := p.addClass "Main" (some 0)
  let p := p.addMethod 1 "arraycopy" [.cls 0, .prim .int, .cls 0, .prim .int, .prim .int] .void
    ⟨true, false, true⟩
  let p := p.addMethod 2 "copyOf" [.array (.cls 0), .prim .int] (.array (.cls 0)) ⟨true, false, true⟩
  let p := p.addMethod 0 "clone" [] (.cls 0) ⟨false, false, true⟩
  let p := p.addMethod 3 "main" [] .void ⟨true, false, false⟩
  let p := p.setBody 3
    { locals := [("thing", .cls 0), ("full", .array (.cls 0)), ("blank", .array (.cls 0)),
        ("both", .array (.cls 0)), ("n", .prim .int), ("copy", .array (.cls 0)), ("twin", .cls 0),
        ("moved", .cls 0), ("copied", .cls 0)]
      stmts := [.new 0 (.cls 0), .new 1 (.array (.cls 0)), .new 2 (.array (.cls 0)), .storeArray 1 0,
        .copy 3 1, .copy 3 2, .invoke ⟨.static, p.refTo 0, none, [3, 4, 3, 4, 4], none⟩, .loadArray 7 2,
        .invoke ⟨.static, p.refTo 1, none, [1, 4], some 5⟩, .loadArray 8 5,
        .invoke ⟨.virtual, p.refTo 2, some 1, [], some 6⟩, .ret none]
      handlers := [] }
  p.setMain 3

def archiveAnalysis (limit : Nat) : Except AnalysisError Result :=
  Analysis.solve { program := archive, files := { root := "" }, stepLimit := limit } { implicitEntries := false }
    (.limited .insensitive)

theorem archive_scoped : archive.Scoped := by decide

theorem archive_invokes :
    archive.Invokes ⟨3, 6⟩ Natives.arraycopySignature ⟨.static, archive.refTo 0, none, [3, 4, 3, 4, 4], none⟩ ∧
    archive.Invokes ⟨3, 8⟩ Natives.copyOfSignature ⟨.static, archive.refTo 1, none, [1, 4], some 5⟩ ∧
    archive.Invokes ⟨3, 10⟩ Natives.cloneSignature ⟨.virtual, archive.refTo 2, some 1, [], some 6⟩ := by
  have arraycopy := NativeModel.table_tidy _ Natives.arraycopy_listed
  have copyOf := NativeModel.table_tidy _ Natives.copyOf_listed
  have clone := NativeModel.table_tidy _ Natives.clone_listed
  refine ⟨?_, ?_, ?_⟩
  · exact .of_tidy (m := 0) arraycopy rfl (by decide) (by decide)
  · exact .of_tidy (m := 1) copyOf rfl (by decide) (by decide)
  · exact .of_tidy (m := 2) clone rfl (by decide) (by decide)

def archiveItem (index : Nat) (ty : Ty) : Item :=
  ⟨[], (HeapRules.ofProgram archive true).allocated ⟨3, index⟩ ty⟩

/-- The thing gets into the empty array, from which it is read, and into the copy; the clone is the first
array. -/
theorem Analysis.archive_closed : ∃ limit r, archiveAnalysis limit = .ok r ∧
    r.facts.Found (.points (.var [] 7) (archiveItem 0 (.cls 0))) ∧
    r.facts.Found (.points (.var [] 5) (Natives.nativeArray ⟨3, 8⟩ (.array (.cls 0)))) ∧
    r.facts.Found (.points (.var [] 8) (archiveItem 0 (.cls 0))) ∧
    r.facts.Found (.points (.var [] 6) (archiveItem 1 (.array (.cls 0)))) := by
  obtain ⟨limit, returns⟩ := (natives_closed (o := { implicitEntries := false })
    (a := { program := archive, files := { root := "" }, stepLimit := 0 }) rfl rfl archive_scoped
    (.limited .insensitive)).2 _ rfl
  obtain ⟨r, solved⟩ := returns limit (Nat.le_refl limit)
  obtain ⟨entries, closed⟩ := solve_obeys (o := { implicitEntries := false }) rfl rfl archive_scoped solved
  obtain ⟨crosses, copies, clones⟩ := archive_invokes
  have main : r.facts.Found (.reached [] 3) := entries 3 List.mem_cons_self
  have makes (index v : Nat) (ty : Ty) (stmt : archive.stmt? ⟨3, index⟩ = some (.new v ty)) :
      r.facts.Found (.points (.var [] v) (archiveItem index ty)) := closed.one (.new stmt) main
  have moves (index v w : Nat) {i : Item} (stmt : archive.stmt? ⟨3, index⟩ = some (.copy w v))
      (held : r.facts.Found (.points (.var [] v) i)) : r.facts.Found (.points (.var [] w) i) :=
    closed.two (.move stmt rfl) main held
  have loads (index v w : Nat) {i k : Item} (stmt : archive.stmt? ⟨3, index⟩ = some (.loadArray w v))
      (held : r.facts.Found (.points (.var [] v) i)) (element : r.facts.Found (.points (.element i) k)) :
      r.facts.Found (.points (.var [] w) k) := closed.three (.access stmt rfl rfl) main held element
  have thing := makes 0 0 (.cls 0) rfl
  have full := makes 1 1 (.array (.cls 0)) rfl
  have blank := makes 2 2 (.array (.cls 0)) rfl
  have stores : archive.stmt? ⟨3, 3⟩ = some (.storeArray 1 0) := rfl
  have element : r.facts.Found (.points (.element (archiveItem 1 (.array (.cls 0)))) (archiveItem 0 (.cls 0))) :=
    closed.three (.access stores rfl rfl) main full thing
  have moved := ((natives_closed (o := { implicitEntries := false }) rfl rfl archive_scoped _).1 r solved).2
  -- both arrays are at one variable, which is source and target
  have crossed := moved.arraycopy [] ⟨3, 6⟩ _ main crosses 3 4 3 [4, 4] rfl _ _ _ (moves 4 1 3 rfl full)
    (moves 5 2 3 rfl blank) element
  obtain ⟨m, decl, resolved, known, copy, copied⟩ := moved.copyOf [] ⟨3, 8⟩ _ main copies 5 rfl
  have target : archive.resolve? (archive.refTo 1) = some 1 := by decide
  obtain rfl : m = 1 := Option.some.inj (resolved.symm.trans target)
  obtain rfl := Option.some.inj known
  exact ⟨limit, r, solved, loads 7 2 7 rfl blank crossed, copy,
    loads 9 5 8 rfl copy (copied 1 rfl _ _ full element), moved.clone [] ⟨3, 10⟩ _ main clones 1 6 rfl rfl _ full⟩

namespace Threads

def startSignature : String := "<java.lang.Thread: void start()>"

def currentSignature : String := "<java.lang.Thread: java.lang.Thread currentThread()>"

/-- The threads that may run: the main thread, if the virtual machine starts it, and whatever was started in
some context. -/
inductive Running (p : Program) (o : Options) (holds : Fact → Prop) : Item → Prop
  | main (implicit : o.implicitEntries = true) :
    Running p o holds
      ⟨[], Obj.mock .thread (.name "<main-thread>") (Ty.ofClass? (p.classByName? "java.lang.Thread"))⟩
  | started {m : MethodId} {this : VarId} {c : Frame} {i : Item}
    (start : p.methodBySignature? startSignature = some m) (receiver : p.this? m = some this)
    (held : holds (.points (.var c this) i)) : Running p o holds i

theorem Running.current {p : Program} {o : Options} {rules : HeapRules} {holds : Fact → Prop} {i : Item}
    (running : Running p o holds i) (satisfied : (ThreadMethods.ofProgram p o).Satisfied p rules holds)
    {m : MethodId} {body : Body} {v : VarId} (asks : p.methodBySignature? currentSignature = some m)
    (code : p.body? m = some body) (first : body.returns.head? = some v) {c : Frame}
    (reached : holds (.reached c m)) : holds (.points (.var c v) i) := by
  have current : (ThreadMethods.ofProgram p o).current = some (m, v) := by
    unfold currentSignature at asks
    simp [ThreadMethods.ofProgram, asks, code, first]
  cases running with
  | main implicit => exact satisfied.main implicit m v current c reached
  | started start receiver held =>
    rename_i n this b
    have startThis : (ThreadMethods.ofProgram p o).startThis = some this := by
      unfold startSignature at start
      simpa [ThreadMethods.ofProgram, start] using receiver
    exact satisfied.started this m v startThis current b c i held reached

end Threads

/-- Whoever asks for the current thread sees every running one: they are all at the variable that the method
returns, in each of its contexts, and at the results of all calls of it. Every run returns. -/
theorem Analysis.current_thread_complete {a : Analysis} {o : Options}
    (registered : a.registry = Registry.builtin) (untainted : o.taintConfig = none)
    (declared : a.program.Scoped) (sel : Selector) :
    (∀ r, a.solve o sel = .ok r → r.facts.Spelled ∧
      ∀ m body v, a.program.methodBySignature? Threads.currentSignature = some m →
        a.program.body? m = some body → body.returns.head? = some v →
        ∀ i, Threads.Running a.program o r.facts.Found i → ∀ c, r.facts.Found (.reached c m) →
          r.facts.Found (.points (.var c v) i) ∧
          ∀ kind b site call result, kind ≠ .other → r.facts.Found (.called kind b site c m) →
            a.program.invoke? site = some call → call.result = some result →
            r.facts.Found (.points (.var b result) i)) ∧
    ∀ chain, a.registry.chain a.program o a.files = .ok chain → ∃ n, ∀ limit, n ≤ limit →
      ∃ r, { a with stepLimit := limit }.solve o sel = .ok r := by
  refine solve_spec registered sel fun chain t made run => ?_
  obtain ⟨spelled, closed, satisfied⟩ := Registry.solved_satisfied made untainted declared run
  refine ⟨spelled, fun m body v asks code first i running c reached => ?_⟩
  have here := running.current (satisfied _ (Registry.threads_mem made)) asks code first reached
  refine ⟨here, fun kind b site call result passes called calls answer => ?_⟩
  exact closed.two (.ret passes calls code answer (List.mem_of_mem_head? first)) called here

/-- A thread is started, and so is the current one. -/
def office : Program :=
  let p : Program := {}
  let p := p.addClass "java.lang.Object" none
  let p := p.addClass "java.lang.Thread" (some 0)
  let p := p.addClass "Main" (some 0)
  let p := p.addMethod 1 "start" [] .void ⟨false, false, false⟩
  let p := p.addMethod 1 "currentThread" [] (.cls 1) ⟨true, false, false⟩
  let p := p.addMethod 2 "main" [] .void ⟨true, false, false⟩
  let p := p.setBody 0 { locals := [], stmts := [.ret none], handlers := [] }
  let p := p.setBody 1 { locals := [("current", .cls 1)], stmts := [.ret (some 0)], handlers := [] }
  let p := p.setBody 2
    { locals := [("worker", .cls 1), ("current", .cls 1)]
      stmts := [.invoke ⟨.static, p.refTo 1, none, [], some 1⟩,
        .invoke ⟨.virtual, p.refTo 0, some 1, [], none⟩, .new 0 (.cls 1),
        .invoke ⟨.virtual, p.refTo 0, some 0, [], none⟩, .ret none]
      handlers := [] }
  p.setMain 2

def officeAnalysis (limit : Nat) : Except AnalysisError Result :=
  Analysis.solve { program := office, files := { root := "" }, stepLimit := limit } {} (.limited .insensitive)

def officeWorker : Item := ⟨[], (HeapRules.ofProgram office true).allocated ⟨2, 2⟩ (.cls 1)⟩

theorem office_scoped : office.Scoped := by decide

theorem office_callee : office.callee? ⟨.virtual, office.refTo 0, some 2, [], none⟩
    officeWorker.obj.ty = some 0 := by
  decide

/-- The current thread may be the main one, and the worker too, though it is started later. -/
theorem Analysis.office_current : ∃ limit r, officeAnalysis limit = .ok r ∧
    r.facts.Found (.points (.var [] 3)
      ⟨[], Obj.mock .thread (.name "<main-thread>") (Ty.ofClass? (office.classByName? "java.lang.Thread"))⟩) ∧
    r.facts.Found (.points (.var [] 3) officeWorker) := by
  obtain ⟨limit, returns⟩ := (current_thread_complete (o := {})
    (a := { program := office, files := { root := "" }, stepLimit := 0 }) rfl rfl office_scoped
    (.limited .insensitive)).2 _ rfl
  obtain ⟨r, solved⟩ := returns limit (Nat.le_refl limit)
  obtain ⟨entries, closed⟩ := solve_obeys (o := {}) rfl rfl office_scoped solved
  have main : r.facts.Found (.reached [] 2) := entries 2 List.mem_cons_self
  -- the current thread is asked for
  have asks : office.stmt? ⟨2, 0⟩ = some (.invoke ⟨.static, office.refTo 1, none, [], some 3⟩) := rfl
  have called : r.facts.Found (.called .static [] ⟨2, 0⟩ [] 1) :=
    closed.one (.callStatic asks rfl (by decide)) main
  have reached : r.facts.Found (.reached [] 1) := closed.one .reach called
  -- and the worker is started
  have makes : office.stmt? ⟨2, 2⟩ = some (.new 2 (.cls 1)) := rfl
  have starts : office.stmt? ⟨2, 3⟩ = some (.invoke ⟨.virtual, office.refTo 0, some 2, [], none⟩) := rfl
  have worker : r.facts.Found (.points (.var [] 2) officeWorker) := closed.one (.new makes) main
  have admitted : r.facts.Found (.admitted (.var [] 2) (.var [] 0) officeWorker) :=
    closed.two (.admits starts rfl (by decide) office_callee rfl) main worker
  have started : r.facts.Found (.points (.var [] 0) officeWorker) := closed.two .pass admitted worker
  have current : office.methodBySignature? Threads.currentSignature = some 1 :=
    (Program.methodBySignature?_eq (.of_chars rfl (by decide))).trans (by decide)
  have start : office.methodBySignature? Threads.startSignature = some 0 :=
    (Program.methodBySignature?_eq (.of_chars rfl (by decide))).trans (by decide)
  have complete := ((current_thread_complete (o := {}) rfl rfl office_scoped _).1 r solved).2 1 _ 1 current rfl rfl
  exact ⟨limit, r, solved,
    (complete _ (.main rfl) [] reached).2 .static [] ⟨2, 0⟩ _ 3 (by decide) called rfl rfl,
    (complete _ (.started start rfl started) [] reached).2 .static [] ⟨2, 0⟩ _ 3 (by decide) called rfl rfl⟩

namespace Reflection

def forNameSignature : String := "<java.lang.Class: java.lang.Class forName(java.lang.String)>"

def newInstanceSignature : String := "<java.lang.Class: java.lang.Object newInstance()>"

theorem forName_listed : (forNameSignature, .forName) ∈ ReflectionModel.table := by
  simp [ReflectionModel.table, forNameSignature]

theorem newInstance_listed : (newInstanceSignature, .newInstance) ∈ ReflectionModel.table := by
  simp [ReflectionModel.table, newInstanceSignature]

/-- Looking up a class by its name runs the initialisers of the class and of its superclasses, at those calls
that `among` tells. -/
def RunsInitializers (p : Program) (holds : Fact → Prop) (among : Invoke → Prop) : Prop :=
  ∀ c site call, holds (.reached c site.method) → p.Invokes site forNameSignature call → among call →
    ∀ arg, call.args.head? = some arg → ∀ i name cls, holds (.points (.var c arg) i) →
      i.obj.constant? = some (.str name) → p.classByName? name = some cls →
      ∀ d k, p.Extends cls d → p.declared? d initializerSubsignature = some k → holds (.reached [] k)

/-- Making an instance of a class object calls the constructor on the new object, at those calls that
`among` tells. -/
def RunsConstructors (p : Program) (sel : Selector) (holds : Fact → Prop) (among : Invoke → Prop) : Prop :=
  ∀ c site call, holds (.reached c site.method) → p.Invokes site newInstanceSignature call → among call →
    ∀ base, call.base = some base → ∀ i cls decl init, holds (.points (.var c base) i) →
      i.obj.constant? = some (.cls (.cls cls)) → p.classes[cls]? = some decl →
      decl.isInterface = false → decl.isAbstract = false → p.declared? cls "void <init>()" = some init →
      let callee := sel.calleeFrame p c site (some ⟨[], instance_ site cls⟩) init
      holds (.called .other c site callee init) ∧
        ∀ this, p.this? init = some this → holds (.points (.var callee this) ⟨[], instance_ site cls⟩)

def Keeps (call : Invoke) : Prop := call.result ≠ none

variable {p : Program} {sel : Selector} {rules : HeapRules} {holds : Fact → Prop}

theorem Satisfied.runsInitializers (satisfied : (ofProgram p).Satisfied p sel rules holds) :
    RunsInitializers p holds Keeps := by
  intro c site call _ invokes keeps arg first i name cls held constant named d k extending declares
  have models := CallModels.models_of_invokes ReflectionModel.table_tidy ReflectionModel.table_apart
    forName_listed invokes
  obtain ⟨result, answer⟩ := Option.ne_none_iff_exists'.mp keeps
  have names : cls ∈ namedClass? p i.obj := by simp [namedClass?, constant, named]
  have initializes : k ∈ initializersOf p cls := Initialized.mem_initializersOf.mpr
    ⟨d, (Program.mem_superclasses (Program.lt_of_declared? declares)).mpr extending, declares⟩
  exact (satisfied.lookUp _ models rfl arg result first answer c i held).2 cls names k initializes

theorem Satisfied.runsConstructors (satisfied : (ofProgram p).Satisfied p sel rules holds) :
    RunsConstructors p sel holds Keeps := by
  intro c site call _ invokes keeps base on i cls decl init held constant known plain concrete declares
  have models := CallModels.models_of_invokes ReflectionModel.table_tidy ReflectionModel.table_apart
    newInstance_listed invokes
  obtain ⟨result, answer⟩ := Option.ne_none_iff_exists'.mp keeps
  have makes : cls ∈ instantiable? p i.obj := by simp [instantiable?, constant, known, plain, concrete]
  exact satisfied.constructs _ models rfl base result on answer c i held cls makes init declares

end Reflection

/-- Where calls keep their results, reflection runs the initialisers and the constructors that it leads to.
Every run returns. -/
theorem Analysis.reflective_effects {a : Analysis} {o : Options} (registered : a.registry = Registry.builtin)
    (untainted : o.taintConfig = none) (reflects : o.reflection = true) (declared : a.program.Scoped)
    (sel : Selector) :
    (∀ r, a.solve o sel = .ok r → r.facts.Spelled ∧
      Reflection.RunsInitializers a.program r.facts.Found Reflection.Keeps ∧
      Reflection.RunsConstructors a.program sel r.facts.Found Reflection.Keeps) ∧
    ∀ chain, a.registry.chain a.program o a.files = .ok chain → ∃ n, ∀ limit, n ≤ limit →
      ∃ r, { a with stepLimit := limit }.solve o sel = .ok r := by
  refine solve_spec registered sel fun chain t made run => ?_
  obtain ⟨spelled, _, satisfied⟩ := Registry.solved_satisfied made untainted declared run
  have reflection := satisfied _ (Registry.reflection_mem made reflects)
  exact ⟨spelled, Reflection.Satisfied.runsInitializers reflection,
    Reflection.Satisfied.runsConstructors reflection⟩

/-- A tool, which is a device, is looked up by its name, and another one is made of its class object. Whether
the calls keep their results is left open. -/
def workshop (keeps : Bool) : Program :=
  let p : Program := {}
  let p := p.addClass "java.lang.Object" none
  let p := p.addClass "java.lang.String" (some 0)
  let p := p.addClass "java.lang.Class" (some 0)
  let p := p.addClass "Device" (some 0)
  let p := p.addClass "Tool" (some 3)
  let p := p.addClass "Main" (some 0)
  let p := p.addMethod 2 "forName" [.cls 1] (.cls 2) ⟨true, false, true⟩
  let p := p.addMethod 2 "newInstance" [] (.cls 0) ⟨false, false, true⟩
  let p := p.addMethod 3 "<clinit>" [] .void ⟨true, false, false⟩
  let p := p.addMethod 4 "<init>" [] .void ⟨false, false, false⟩
  let p := p.addMethod 5 "main" [] .void ⟨true, false, false⟩
  let p := p.setBody 3 { locals := [], stmts := [.ret none], handlers := [] }
  let p := p.setBody 4
    { locals := [("name", .cls 1), ("found", .cls 2), ("kind", .cls 2), ("made", .cls 0)]
      stmts := [.literal 0 (.str "Tool"),
        .invoke ⟨.static, p.refTo 0, none, [0], if keeps then some 1 else none⟩,
        .literal 2 (.cls (.cls 4)),
        .invoke ⟨.virtual, p.refTo 1, some 2, [], if keeps then some 3 else none⟩, .ret none]
      handlers := [] }
  p.setMain 4

def workshopAnalysis (keeps : Bool) (limit : Nat) : Except AnalysisError Result :=
  Analysis.solve { program := workshop keeps, files := { root := "" }, stepLimit := limit }
    { implicitEntries := false, reflection := true } (.limited .insensitive)

theorem workshop_scoped (keeps : Bool) : (workshop keeps).Scoped := by cases keeps <;> decide

theorem workshop_lookUp (keeps : Bool) : (workshop keeps).Invokes ⟨4, 1⟩ Reflection.forNameSignature
    ⟨.static, ⟨2, "java.lang.Class forName(java.lang.String)"⟩, none, [1], if keeps then some 2 else none⟩ := by
  have tidy := ReflectionModel.table_tidy _ Reflection.forName_listed
  cases keeps
  · exact .of_tidy (m := 0) tidy rfl (by decide) (by decide)
  · exact .of_tidy (m := 0) tidy rfl (by decide) (by decide)

theorem workshop_make (keeps : Bool) : (workshop keeps).Invokes ⟨4, 3⟩ Reflection.newInstanceSignature
    ⟨.virtual, ⟨2, "java.lang.Object newInstance()"⟩, some 3, [], if keeps then some 4 else none⟩ := by
  have tidy := ReflectionModel.table_tidy _ Reflection.newInstance_listed
  cases keeps
  · exact .of_tidy (m := 1) tidy rfl (by decide) (by decide)
  · exact .of_tidy (m := 1) tidy rfl (by decide) (by decide)

/-- Whatever becomes of the results, the calls are made with the name and with the class object. -/
theorem workshop_found {keeps : Bool} {limit : Nat} (solved : workshopAnalysis keeps limit = .ok r) :
    r.facts.Found (.reached [] 4) ∧
    r.facts.Found (.points (.var [] 1) ⟨[], (HeapRules.ofProgram (workshop keeps) true).constant (.str "Tool")⟩) ∧
    r.facts.Found (.points (.var [] 3)
      ⟨[], (HeapRules.ofProgram (workshop keeps) true).constant (.cls (.cls 4))⟩) := by
  obtain ⟨entries, closed⟩ := Analysis.solve_obeys rfl rfl (workshop_scoped keeps) solved
  have main : r.facts.Found (.reached [] 4) := entries 4 (by cases keeps <;> exact List.mem_cons_self)
  have name : (workshop keeps).stmt? ⟨4, 0⟩ = some (.literal 1 (.str "Tool")) := by cases keeps <;> rfl
  have kind : (workshop keeps).stmt? ⟨4, 2⟩ = some (.literal 3 (.cls (.cls 4))) := by cases keeps <;> rfl
  exact ⟨main, closed.one (.literal name rfl) main, closed.one (.literal kind rfl) main⟩

/-- Where the results are kept, the tool that is looked up has the initialiser of devices run, and the one that
is made is constructed. -/
theorem Analysis.workshop_effects : ∃ limit r, workshopAnalysis true limit = .ok r ∧
    (workshop true).Extends 4 3 ∧ r.facts.Found (.reached [] 2) ∧
    r.facts.Found (.called .other [] ⟨4, 3⟩ [] 3) ∧
    r.facts.Found (.points (.var [] 0) ⟨[], Reflection.instance_ ⟨4, 3⟩ 4⟩) := by
  obtain ⟨limit, returns⟩ := (reflective_effects (o := { implicitEntries := false, reflection := true })
    (a := { program := workshop true, files := { root := "" }, stepLimit := 0 }) rfl rfl rfl (workshop_scoped true)
    (.limited .insensitive)).2 _ rfl
  obtain ⟨r, solved⟩ := returns limit (Nat.le_refl limit)
  obtain ⟨main, name, kind⟩ := workshop_found solved
  obtain ⟨_, initializers, constructors⟩ :=
    (reflective_effects rfl rfl rfl (workshop_scoped true) _).1 r solved
  have tool : (workshop true).classByName? "Tool" = some 4 := by decide
  have above : (workshop true).Extends 4 3 := ⟨1, rfl⟩
  have initialized := initializers [] ⟨4, 1⟩ _ main (workshop_lookUp true) nofun 1 rfl _ "Tool" 4 name rfl tool 3 2
    above rfl
  have constructed := constructors [] ⟨4, 3⟩ _ main (workshop_make true) nofun 3 rfl _ 4 _ 3
    kind rfl rfl rfl rfl rfl
  exact ⟨limit, r, solved, above, initialized, constructed.1, constructed.2 0 rfl⟩

/-- Where the results are dropped, so is all that the calls should do besides. -/
theorem Analysis.workshop_drops : ∃ r, workshopAnalysis false 200 = .ok r ∧
    ¬ Reflection.RunsInitializers (workshop false) r.facts.Found (fun _ => True) ∧
    ¬ Reflection.RunsConstructors (workshop false) (.limited .insensitive) r.facts.Found (fun _ => True) := by
  -- the initialiser of devices is not reached, and reflection has made no call
  obtain ⟨r, solved, unreached, uncalled⟩ : ∃ r, workshopAnalysis false 200 = .ok r ∧
      2 ∉ r.facts.calls.reachable.filterMap (fun id => (r.facts.elements.method? id).map (·.2)) ∧
      ∀ e ∈ r.facts.calls.edges, e.kind ≠ .other := by
    apply Analysis.ok_of_decide
    unfold workshopAnalysis Analysis.solve Registry.chain Natives.ofProgram Reflection.ofProgram
    rw [CallModels.ofProgram_eq NativeModel.table_tidy, CallModels.ofProgram_eq ReflectionModel.table_tidy]
    decide +kernel
  obtain ⟨main, name, kind⟩ := workshop_found solved
  have tool : (workshop false).classByName? "Tool" = some 4 := by decide
  refine ⟨r, solved, fun initializers => ?_, fun constructors => ?_⟩
  · obtain ⟨id, ⟨c, known, _⟩, reachable⟩ := initializers [] ⟨4, 1⟩ _ main (workshop_lookUp false) trivial 1 rfl _
      "Tool" 4 name rfl tool 3 2 ⟨1, rfl⟩ rfl
    exact unreached (List.mem_filterMap.mpr ⟨id, reachable, by rw [known]; rfl⟩)
  · obtain ⟨⟨e, edge, other, _⟩, _⟩ := constructors [] ⟨4, 3⟩ _ main (workshop_make false) trivial 3 rfl _ 4 _ 3
      kind rfl rfl rfl rfl rfl
    exact uncalled e edge other

end PointsTo
