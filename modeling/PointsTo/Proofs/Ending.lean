import PointsTo.Proofs.BuiltIn
import PointsTo.Proofs.Tainting
import PointsTo.Proofs.Termination

/-!
Every run with the built-in handlers ends. The objects they can make have an origin and a type from two
finite stocks, which a program and a taint configuration fix; the product of the two is a world that no
handler leaves.
-/
namespace PointsTo

theorem lastIdx?_holds {α : Type u} {holds : α → Bool} {l : List α} {i : Nat}
    (found : lastIdx? holds l = some i) : ∃ a, l[i]? = some a ∧ holds a = true := by
  induction l generalizing i with
  | nil => cases found
  | cons a rest ih =>
    unfold lastIdx? at found
    split at found
    · next j later =>
      cases found
      exact ih later
    · split at found
      · next here =>
        cases found
        exact ⟨a, rfl, here⟩
      · cases found

namespace Stmt

def madeTy? : Stmt → Option Ty
  | new _ ty => some ty
  | _ => none

def value? : Stmt → Option Literal
  | literal _ value => some value
  | _ => none

end Stmt

def IndexKind.field? : IndexKind → Option FieldId
  | field f => some f
  | _ => none

/-- The types of a declaration, with the types of the elements that its parameters may have. -/
def MethodDecl.types (d : MethodDecl) : List Ty :=
  .cls d.owner :: d.ret :: (d.params ++ d.params.filterMap Ty.elem?)

namespace TaintConfig

def types (c : TaintConfig) : List Ty := c.sources.map Source.ty ++ c.transfers.map TaintTransfer.ty

def refs (c : TaintConfig) : List IndexRef :=
  c.sources.filterMap Source.ref? ++ c.transfers.flatMap fun t => [t.source, t.target]

end TaintConfig

namespace Program

def allStmts (p : Program) : List Stmt := (List.range p.methods.size).flatMap p.stmts

def typesWith (p : Program) (config : TaintConfig) : List Ty :=
  [.null, .prim .int, .prim .double] ++ (List.range p.classes.size).map .cls ++
    p.methods.toList.flatMap MethodDecl.types ++ p.vars.toList.map VarDecl.ty ++
    p.allStmts.filterMap Stmt.madeTy? ++ config.types

def literalsWith (p : Program) (config : TaintConfig) : List Literal :=
  [.str "main", .null] ++ p.allStmts.filterMap Stmt.value? ++ (p.typesWith config).map .cls

/-- Positions of parameters and numbers of points lie below it. -/
def boundWith (p : Program) (config : TaintConfig) : Nat :=
  (p.methods.toList.toFinset.sup fun d => d.params.length) + (p.pointsOf config.sources).card

def keysWith (p : Program) (config : TaintConfig) : Finset MockKey :=
  (["this", "<system-thread-group>", "<main-thread-group>", "<main-thread>"].map MockKey.name).toFinset ∪
    p.allSites.image .stmt ∪
    (p.allMethods ×ˢ Finset.range (p.boundWith config)).image (fun x => .param x.1 x.2) ∪
    (p.literalsWith config).toFinset.image .literal ∪ (p.typesWith config).toFinset.image .type ∪
    (Finset.range (p.boundWith config)).image .index

def originsWith (p : Program) (config : TaintConfig) : Finset Origin :=
  p.allSites.image .allocated ∪ (p.literalsWith config).toFinset.image .constant ∪
    (Descriptor.all.toFinset ×ˢ p.keysWith config ×ˢ insert none (p.allMethods.image some)).image
      fun x => .mock x.1 x.2.1 x.2.2

def objsWith (p : Program) (config : TaintConfig) : Finset Obj :=
  (p.originsWith config ×ˢ (p.typesWith config).toFinset).image fun x => ⟨x.1, x.2⟩

def fieldsWith (p : Program) (config : TaintConfig) : List FieldId :=
  p.allStmts.filterMap Stmt.field? ++ config.refs.filterMap fun r => r.kind.field?

variable {p : Program} {config : TaintConfig} {ty : Ty} {d : Descriptor} {key : MockKey} {m : MethodId}
  {site : StmtRef} {stmt : Stmt} {c : ClassId} {decl : MethodDecl} {value : Literal} {v : VarId}

theorem mem_objsWith {origin : Origin} :
    ⟨origin, ty⟩ ∈ p.objsWith config ↔ origin ∈ p.originsWith config ∧ ty ∈ p.typesWith config := by
  simp [objsWith]

theorem mock_mem_originsWith {container : Option MethodId} :
    .mock d key container ∈ p.originsWith config ↔
      key ∈ p.keysWith config ∧ ∀ m ∈ container, m ∈ p.allMethods := by
  have described : d ∈ Descriptor.all := by cases d <;> decide
  cases container <;> simp [originsWith, described]

theorem mock_mem (keyed : key ∈ p.keysWith config) (typed : ty ∈ p.typesWith config) :
    Obj.mock d key ty ∈ p.objsWith config ∧ (Obj.mock d key ty).site? = none :=
  ⟨mem_objsWith.mpr ⟨mock_mem_originsWith.mpr ⟨keyed, fun _ none => nomatch none⟩, typed⟩, rfl⟩

theorem mockIn_mem (keyed : key ∈ p.keysWith config) (typed : ty ∈ p.typesWith config)
    (declared : m ∈ p.allMethods) :
    Obj.mockIn d key ty m ∈ p.objsWith config ∧ (Obj.mockIn d key ty m).site? = none :=
  ⟨mem_objsWith.mpr
    ⟨mock_mem_originsWith.mpr ⟨keyed, fun _ same => Option.some.inj same ▸ declared⟩, typed⟩, rfl⟩

theorem mem_allStmts (known : p.stmt? site = some stmt) : stmt ∈ p.allStmts := by
  have member : stmt ∈ p.stmts site.method := List.mem_of_getElem? known
  refine List.mem_flatMap.mpr ⟨site.method, List.mem_range.mpr ?_, member⟩
  cases code : p.body? site.method with
  | none => simp [stmts, code] at member
  | some body => exact lt_of_body? code

theorem method_mem_of_stmt? (known : p.stmt? site = some stmt) : site.method ∈ p.allMethods := by
  cases code : p.body? site.method with
  | none => simp [stmt?, stmts, code] at known
  | some body =>
    obtain ⟨decl, declared, _⟩ := Option.bind_eq_some_iff.mp code
    exact mem_allMethods declared

theorem methodBySignature?_mem {signature : String} (found : p.methodBySignature? signature = some m) :
    m ∈ p.allMethods := by
  obtain ⟨_, known, _⟩ := lastIdx?_holds found
  exact mem_allMethods (Array.getElem?_toList.symm.trans known)

theorem cls_mem (inside : c < p.classes.size) : .cls c ∈ p.typesWith config := by
  simp [typesWith, inside]

theorem classByName?_lt {name : String} (found : p.classByName? name = some c) : c < p.classes.size := by
  obtain ⟨_, known, _⟩ := lastIdx?_holds found
  exact (Array.getElem?_eq_some_iff.mp (Array.getElem?_toList.symm.trans known)).1

theorem ofClass?_mem (name : String) : Ty.ofClass? (p.classByName? name) ∈ p.typesWith config := by
  cases found : p.classByName? name with
  | none => simp [Ty.ofClass?, typesWith]
  | some c => exact cls_mem (classByName?_lt found)

theorem declared_ty_mem (known : p.methods[m]? = some decl) (listed : ty ∈ decl.types) :
    ty ∈ p.typesWith config := by
  have member : decl ∈ p.methods.toList := Array.mem_toList_iff.mpr (Array.mem_of_getElem? known)
  simp only [typesWith, List.mem_append]
  exact Or.inl (Or.inl (Or.inl (Or.inr (List.mem_flatMap.mpr ⟨decl, member, listed⟩))))

theorem param_lt_bound (known : p.methods[m]? = some decl) {i : Nat} (inside : i < decl.params.length) :
    i < p.boundWith config := by
  have member : decl ∈ p.methods.toList := Array.mem_toList_iff.mpr (Array.mem_of_getElem? known)
  have longest : decl.params.length ≤ p.methods.toList.toFinset.sup fun d => d.params.length :=
    Finset.le_sup (f := fun d : MethodDecl => d.params.length) (List.mem_toFinset.mpr member)
  unfold boundWith
  omega

theorem literalTy_mem (merges : Bool) (value : Literal) :
    (HeapRules.ofProgram p merges).literalTy value ∈ p.typesWith config := by
  cases value with
  | str _ => exact ofClass?_mem _
  | cls _ => exact ofClass?_mem _
  | _ => simp [HeapRules.literalTy, typesWith]

theorem constant_mem {merges : Bool} (listed : value ∈ p.literalsWith config) :
    (HeapRules.ofProgram p merges).constant value ∈ p.objsWith config ∧
      ((HeapRules.ofProgram p merges).constant value).site? = none :=
  ⟨mem_objsWith.mpr ⟨by simp [originsWith, listed], literalTy_mem merges value⟩, rfl⟩

theorem value_mem (known : p.stmt? site = some (.literal v value)) : value ∈ p.literalsWith config := by
  have member : value ∈ p.allStmts.filterMap Stmt.value? :=
    List.mem_filterMap.mpr ⟨_, mem_allStmts known, rfl⟩
  simp [literalsWith, member]

theorem cls_value_mem (typed : ty ∈ p.typesWith config) : .cls ty ∈ p.literalsWith config := by
  simp [literalsWith, typed]

theorem allocated_mem {merges : Bool} (known : p.stmt? site = some (.new v ty)) :
    (HeapRules.ofProgram p merges).allocated site ty ∈ p.objsWith config := by
  have typed : ty ∈ p.typesWith config := by
    have made : ty ∈ p.allStmts.filterMap Stmt.madeTy? :=
      List.mem_filterMap.mpr ⟨_, mem_allStmts known, rfl⟩
    simp [typesWith, made]
  unfold HeapRules.allocated
  split
  · exact (mock_mem (by simp [keysWith, typed]) typed).1
  · exact mem_objsWith.mpr ⟨by simp [originsWith, mem_allSites known], typed⟩

def worldWith (p : Program) (sel : Selector) (merges : Bool) (config : TaintConfig) :
    World p sel (HeapRules.ofProgram p merges) where
  objs := p.objsWith config
  fields := (p.fieldsWith config).toFinset
  allocated := fun _ _ _ known => allocated_mem known
  constant := fun _ _ _ known _ => (constant_mem (value_mem known)).1
  accessed := fun _ stmt f known accesses => by
    have member : f ∈ p.allStmts.filterMap Stmt.field? :=
      List.mem_filterMap.mpr ⟨stmt, mem_allStmts known, accesses⟩
    simp [fieldsWith, member]

end Program

variable {p : Program} {o : Options} {config : TaintConfig} {sel : Selector} {merges : Bool}

namespace Entries

theorem mockedObjs_mem {m : MethodId} (declared : m ∈ p.allMethods) :
    ∀ x ∈ EntryPoint.mockedObjs p m, x ∈ p.objsWith config ∧ x.site? = none := by
  cases known : p.methods[m]? with
  | none => simp [EntryPoint.mockedObjs, mockThis, MockParam.ofMethod, known]
  | some decl =>
    refine List.forall_mem_append.mpr ⟨fun x listed => ?_, fun x listed => ?_⟩
    · simp only [mockThis, known] at listed
      split at listed
      · cases listed
      · cases List.mem_singleton.mp listed
        refine Program.mockIn_mem (by simp [Program.keysWith]) ?_ declared
        exact Program.declared_ty_mem known List.mem_cons_self
    · obtain ⟨q, made, inside⟩ := List.mem_flatMap.mp listed
      simp only [MockParam.ofMethod, known] at made
      obtain ⟨⟨ty, i⟩, place, made⟩ := List.mem_filterMap.mp made
      have short : i < p.boundWith config :=
        Program.param_lt_bound known (List.snd_lt_of_mem_zipIdx place)
      have given : ty ∈ decl.params := List.fst_mem_of_mem_zipIdx place
      simp only [MockParam.ofTy?] at made
      split at made
      · cases made
        rcases List.mem_cons.mp inside with rfl | elem
        · refine Program.mockIn_mem (by simp [Program.keysWith, declared, short]) ?_ declared
          exact Program.declared_ty_mem known (by simp [MethodDecl.types, given])
        · obtain ⟨e, kept, rfl⟩ := Option.map_eq_some_iff.mp (Option.mem_toList.mp elem)
          refine Program.mockIn_mem (by simp [Program.keysWith, short]) ?_ declared
          refine Program.declared_ty_mem known ?_
          have element : e ∈ decl.params.filterMap Ty.elem? :=
            List.mem_filterMap.mpr ⟨ty, given, (Option.filter_eq_some_iff.mp kept).1⟩
          simp [MethodDecl.types, element]
      · cases made

theorem stays : (Entries.ofOptions p o).Stays (p.worldWith sel merges config) where
  entries := by
    intro m listed
    have declared : m ∈ p.allMethods := by
      simp only [ofOptions] at listed
      split at listed
      · exact Program.main_mem_allMethods (Option.mem_toList.mp listed)
      · obtain ⟨signature, _, found⟩ := List.mem_filterMap.mp listed
        exact Program.methodBySignature?_mem found
    exact ⟨declared, mockedObjs_mem declared⟩
  implicit := by
    intro m listed
    simp only [ofOptions] at listed
    split at listed
    · obtain ⟨signature, _, found⟩ := List.mem_filterMap.mp listed
      exact Program.methodBySignature?_mem found
    · cases listed

end Entries

theorem Threads.stays :
    Threads.Stays (p.worldWith sel merges config) { methods := ThreadMethods.ofProgram p o } where
  objs := by
    have group : (ThreadMethods.ofProgram p o).groupTy ∈ p.typesWith config := Program.ofClass?_mem _
    have thread : (ThreadMethods.ofProgram p o).threadTy ∈ p.typesWith config := Program.ofClass?_mem _
    simp only [List.forall_mem_cons]
    exact ⟨Program.mock_mem (by simp [Program.keysWith]) group,
      Program.mock_mem (by simp [Program.keysWith]) group,
      Program.constant_mem (by simp [Program.literalsWith]),
      Program.mock_mem (by simp [Program.keysWith]) thread, List.forall_mem_nil _⟩
  inits := by
    simp only [List.forall_mem_cons]
    exact ⟨fun m => Program.methodBySignature?_mem, fun m => Program.methodBySignature?_mem,
      fun m => Program.methodBySignature?_mem, List.forall_mem_nil _⟩
  result := fun _ _ current => Program.mem_allVars (Registry.mentions_current current)
  started := fun x member => absurd member (ObjSet.not_mem_empty x)
  main := fun _ none => nomatch none
  asked := List.forall_mem_nil _

theorem Natives.stays : (Natives.ofProgram p).Stays (p.worldWith sel merges config) where
  recorded := List.forall_mem_nil _
  copies := by
    intro c calls x made
    obtain ⟨decl, found, rfl⟩ := Option.map_eq_some_iff.mp made
    obtain ⟨m, _, known⟩ := Option.bind_eq_some_iff.mp found
    have there := Program.stmt?_of_invoke? calls
    refine Program.mockIn_mem (by simp [Program.keysWith, Program.mem_allSites there]) ?_
      (Program.method_mem_of_stmt? there)
    exact Program.declared_ty_mem known (by simp [MethodDecl.types])

theorem Reflection.stays : (Reflection.ofProgram p).Stays (p.worldWith sel merges config) where
  recorded := List.forall_mem_nil _
  unknown := by
    intro site call calls
    have key : .stmt site ∈ p.keysWith config := by
      simp [Program.keysWith, Program.mem_allSites (Program.stmt?_of_invoke? calls)]
    exact ⟨Program.mock_mem key (Program.ofClass?_mem _), Program.mock_mem key (Program.ofClass?_mem _)⟩
  named := fun name c found =>
    Program.constant_mem (Program.cls_value_mem (Program.cls_mem (Program.classByName?_lt found)))
  classes := by
    intro x member k found
    have typed : x.ty ∈ p.typesWith config := (Program.mem_objsWith.mp member).2
    have constant : (p.worldWith sel merges config).Foreign
        ((HeapRules.ofProgram p merges).constant (.cls x.ty)) :=
      Program.constant_mem (Program.cls_value_mem typed)
    unfold classObj? at found
    split at found
    · exact Option.some.inj found ▸ constant
    · exact Option.some.inj found ▸ constant
    · cases found
  instances := by
    intro site call c decl calls declared
    have there := Program.stmt?_of_invoke? calls
    refine Program.mockIn_mem (by simp [Program.keysWith, Program.mem_allSites there]) ?_
      (Program.method_mem_of_stmt? there)
    exact Program.cls_mem (Array.getElem?_eq_some_iff.mp declared).1

namespace LiteralAssigns

theorem stays_nulls :
    Stays (p.worldWith sel merges config) (fun _ _ => some nullObj) {} where
  assigns := List.forall_mem_nil _
  objs := by
    intro site v value x _ same
    cases same
    exact Program.mock_mem (by simp [Program.keysWith, Program.literalsWith]) (by simp [Program.typesWith])

theorem stays_numbers : Stays (p.worldWith sel merges config) (numberObj? p) {} where
  assigns := List.forall_mem_nil _
  objs := by
    intro site v value x known made
    obtain ⟨decl, declared, rfl⟩ := Option.map_eq_some_iff.mp made
    have listed : decl ∈ p.vars.toList := Array.mem_toList_iff.mpr (Array.mem_of_getElem? declared)
    have typed : decl.ty ∈ p.vars.toList.map VarDecl.ty := List.mem_map_of_mem listed
    refine Program.mock_mem (by simp [Program.keysWith, Program.value_mem known]) ?_
    simp only [Program.typesWith, List.mem_append]
    exact Or.inl (Or.inl (Or.inr typed))

end LiteralAssigns

namespace Taint

variable {ty : Ty}

theorem hasKind_ref {r : IndexRef} (listed : r ∈ config.refs) :
    (p.worldWith sel merges config).HasKind r.kind := by
  cases place : r.kind with
  | field f =>
    have member : f ∈ config.refs.filterMap fun r => r.kind.field? :=
      List.mem_filterMap.mpr ⟨r, listed, by rw [place]; rfl⟩
    exact List.mem_toFinset.mpr (List.mem_append_right _ member)
  | _ => trivial

theorem config_ty_mem (listed : ty ∈ config.types) : ty ∈ p.typesWith config :=
  List.mem_append_right _ listed

theorem retaints (typed : ty ∈ p.typesWith config) : (p.worldWith sel merges config).Retaints ty := by
  rintro ⟨origin, old⟩ member x made
  unfold retaint? at made
  split at made
  · obtain ⟨key, same, rfl⟩ := Option.map_eq_some_iff.mp made
    cases origin with
    | mock d key' container =>
      cases same
      exact Program.mock_mem (Program.mock_mem_originsWith.mp (Program.mem_objsWith.mp member).1).1 typed
    | _ => cases same
  · cases made

theorem stays : (Taint.ofConfig config).Stays (p.worldWith sel merges config) where
  sources := {
    same := rfl
    points := Table.within_empty
    marks := by
      intro source given i inside
      have numbered : i < p.boundWith config := Nat.lt_of_lt_of_le inside (Nat.le_add_left _ _)
      exact Program.mock_mem (by simp [Program.keysWith, numbered])
        (config_ty_mem (List.mem_append_left _ (List.mem_map_of_mem given)))
    kinds := fun source given r ref =>
      hasKind_ref (List.mem_append_left _ (List.mem_filterMap.mpr ⟨source, given, ref⟩))
    loads := List.forall_mem_nil _
    pending := List.forall_mem_nil _ }
  transfers := {
    transfers := by
      intro t given
      have ends : ∀ r ∈ [t.source, t.target], r ∈ config.refs := fun r listed =>
        List.mem_append_right _ (List.mem_flatMap.mpr ⟨t, given, listed⟩)
      exact ⟨hasKind_ref (ends _ List.mem_cons_self),
        hasKind_ref (ends _ (List.mem_cons_of_mem _ List.mem_cons_self)),
        retaints (config_ty_mem (List.mem_append_right _ (List.mem_map_of_mem given)))⟩
    pending := List.forall_mem_nil _ }

end Taint

namespace Handler

variable {rules : HeapRules} {W : World p sel rules} {f : Facts} {h : Handler}

def Stays (W : World p sel rules) : Handler → Prop
  | timer | initializers _ | warnings _ => True
  | entries s => s.Stays W
  | threads s => s.Stays W
  | natives s => s.Stays W
  | exceptions s => s.Stays W
  | reflection s => s.Stays W
  | taint s => s.Stays W
  | nulls s => s.Stays W fun _ _ => some nullObj
  | numbers s => s.Stays W (numberObj? p)
  | script _ => False

theorem react_confined (stays : h.Stays W) (confined : f.Confined W) {e : Event} (within : e.Within W) :
    (h.react p e f).Confined W (Stays W) := by
  cases h with
  | timer => exact Reaction.confined_silent trivial
  | entries s => exact (Entries.react_confined stays e).map _ fun _ good => good
  | initializers s => exact (s.react_confined e).map _ fun _ good => good
  | threads s => exact (Threads.react_confined stays confined within).map _ fun _ good => good
  | natives s => exact (Natives.react_confined stays confined within).map _ fun _ good => good
  | exceptions s => exact (Exceptions.react_confined stays confined within).map _ fun _ good => good
  | reflection s => exact (Reflection.react_confined stays confined e).map _ fun _ good => good
  | taint s => exact (Taint.react_confined stays confined within).map _ fun _ good => good
  | nulls s | numbers s => exact (LiteralAssigns.react_confined stays confined _ e).map _ fun _ good => good
  | warnings s =>
    refine ⟨trivial, fun x member => ?_, fun c member => ?_⟩
    all_goals
      cases e with
      | unresolved receiver context site =>
        simp only [react, Reaction.map, Warnings.react] at member
        split at member <;> cases member
      | _ => cases member
  | script s => exact stays.elim

theorem Stays.plain (stays : h.Stays W) (s : Script) : h ≠ .script s := by
  rintro rfl
  exact stays

end Handler

namespace Chain

variable {rules : HeapRules} {W : World p sel rules} {f : Facts} {chain : Chain}

def Stays (W : World p sel rules) (chain : Chain) : Prop := ∀ h ∈ chain, h.Stays W

theorem react_confined (stays : chain.Stays W) (confined : f.Confined W) {e : Event}
    (within : e.Within W) : (Chain.react p e f chain).Confined W (Stays W) := by
  have each := fun h listed => Handler.react_confined (stays h listed) confined within
  refine ⟨?_, fun o made => ?_, fun d asked => ?_⟩
  · rw [react_state]
    exact List.forall_mem_map.mpr fun h listed => (each h listed).state
  · obtain ⟨h, listed, made⟩ := mem_created.mp made
    exact (each h listed).created o made
  · obtain ⟨h, listed, asked⟩ := mem_commands.mp asked
    exact (each h listed).commands d asked

def confinement (W : World p sel rules) : Confinement ⟨p, sel, Chain.handlers p⟩ rules where
  world := W
  Good := Stays W
  react := fun _ _ _ confined within stays => react_confined stays confined within
  phaseEnd := fun n f _ stays => phaseEnd_silent (fun h member => (stays h member).plain) f n

end Chain

namespace Registry

theorem Makes.stays {h : Handler} (made : Makes p o config h) :
    h.Stays (p.worldWith sel o.mergeStrings config) := by
  cases made with
  | timer => trivial
  | entries => exact Entries.stays
  | initializers => trivial
  | threads => exact Threads.stays
  | natives => exact Natives.stays
  | exceptions => exact List.forall_mem_nil _
  | reflection => exact Reflection.stays
  | taint _ => exact Taint.stays
  | nulls => exact LiteralAssigns.stays_nulls
  | numbers => exact LiteralAssigns.stays_numbers
  | warnings => trivial

end Registry

/-- With the handlers that options ask for, every run over every program and selector ends after finitely
many steps, and then no work item and no command is left. -/
theorem Registry.chain_terminates {files : FileTree} {chain : Chain}
    (made : Registry.builtin.chain p o files = .ok chain) (sel : Selector) :
    ∃ n t, (∀ fuel, n ≤ fuel → Solver.solve ⟨p, sel, Chain.handlers p⟩ fuel
        (Heap.ofProgram p o.mergeStrings) chain = some t) ∧
      t.worklist.isEmpty = true ∧ t.queue = [] := by
  obtain ⟨config, makes⟩ := Registry.chain_makes made
  exact Solver.solve_ends (Chain.confinement (p.worldWith sel o.mergeStrings config)) rfl rfl
    fun h member => (makes h member).stays

/-- Options that ask for reflection and for both handlers of literals. -/
def fullOptions : Options := { plugins := ["null-handler", "number-literal"], reflection := true }

theorem Registry.boxes_terminate :
    ∃ chain, Registry.builtin.chain boxes fullOptions { root := "" } = .ok chain ∧
      ∃ n t, (∀ fuel, n ≤ fuel → Solver.solve ⟨boxes, .guided [(0, .object 2)] (.callSite 1),
          Chain.handlers boxes⟩ fuel (Heap.ofProgram boxes fullOptions.mergeStrings) chain = some t) ∧
        t.worklist.isEmpty = true ∧ t.queue = [] := by
  have made : Registry.builtin.chain boxes fullOptions { root := "" } = .ok _ := rfl
  exact ⟨_, made, Registry.chain_terminates made _⟩

end PointsTo
