import Mathlib.Data.Finset.Lattice.Fold
import Mathlib.Data.Finset.Option
import Mathlib.Data.Finset.Prod
import Mathlib.Order.Lattice.Nat
import PointsTo.Proofs.Record

/-!
Finite worlds. With finitely many objects and fields, a program has finitely many contexts, pointers and
call edges. Facts are confined to a world if every table keeps to it, and handlers are if all they ask
for lies in it.
-/
namespace PointsTo

namespace Table

variable {α : Type u} [DecidableEq α] {t : Table α} {all : Finset α} {a : α}

def Within (t : Table α) (all : Finset α) : Prop := ∀ i a, t.get? i = some a → a ∈ all

theorem Within.lt (within : t.Within all) {i : Nat} (known : t.get? i = some a) : i < all.card := by
  have bound : i < t.items.toList.length := by
    rw [Array.length_toList]
    exact (Array.getElem?_eq_some_iff.mp known).1
  have inside : t.items.toList.toFinset ⊆ all := by
    intro b member
    obtain ⟨j, found⟩ := List.mem_iff_getElem?.mp (List.mem_toFinset.mp member)
    exact within j b (by rwa [get?, ← Array.getElem?_toList])
  have size := Finset.card_le_card inside
  rw [List.toFinset_card_of_nodup t.distinct] at size
  omega

theorem Within.intern (within : t.Within all) (member : a ∈ all) : (t.intern a).1.Within all := by
  intro i b found
  rcases get?_intern_inv found with old | ⟨rfl, _⟩
  · exact within i b old
  · exact member

theorem Within.intern_lt (within : t.Within all) (member : a ∈ all) : (t.intern a).2 < all.card :=
  (within.intern member).lt (get?_intern_self t a)

theorem Within.internAll (within : t.Within all) {items : List α} (inside : ∀ a ∈ items, a ∈ all) :
    (t.internAll items).Within all :=
  List.foldlRecOn (motive := fun u : Table α => u.Within all) items _ within fun _ known a member =>
    known.intern (inside a member)

theorem within_empty : (empty : Table α).Within all := fun _ _ found => by cases found

end Table

/-- The lists of at most `n` elements, all of them from `all`. -/
def sequences {α : Type u} [DecidableEq α] (all : Finset α) : Nat → Finset (List α)
  | 0 => {[]}
  | n + 1 => insert [] ((all ×ˢ sequences all n).image fun x => x.1 :: x.2)

theorem mem_sequences {α : Type u} [DecidableEq α] {all : Finset α} {n : Nat} {l : List α} :
    l ∈ sequences all n ↔ l.length ≤ n ∧ ∀ a ∈ l, a ∈ all := by
  induction n generalizing l with
  | zero => cases l <;> simp [sequences]
  | succ n ih => cases l <;> simp [sequences, ih, and_left_comm, and_assoc]

namespace Program

def allSites (p : Program) : Finset StmtRef :=
  ((List.range p.methods.size).flatMap fun m => (p.stmtRefs m).map Prod.fst).toFinset

def allVars (p : Program) : Finset VarId :=
  ((List.range p.methods.size).flatMap fun m => (p.body? m).toList.flatMap Body.mentioned).toFinset

/-- The declared methods, and the main method even if it is not declared. -/
def allMethods (p : Program) : Finset MethodId := (List.range p.methods.size ++ p.main.toList).toFinset

variable {p : Program} {m : MethodId} {v : VarId} {c : ClassId} {subsignature : String}

theorem mem_allMethods {decl : MethodDecl} (known : p.methods[m]? = some decl) : m ∈ p.allMethods :=
  List.mem_toFinset.mpr
    (List.mem_append_left _ (List.mem_range.mpr (Array.getElem?_eq_some_iff.mp known).1))

theorem main_mem_allMethods (main : p.main = some m) : m ∈ p.allMethods := by
  simp [allMethods, main]

theorem lt_of_body? {body : Body} (code : p.body? m = some body) : m < p.methods.size := by
  obtain ⟨decl, known, _⟩ := Option.bind_eq_some_iff.mp code
  exact (Array.getElem?_eq_some_iff.mp known).1

theorem mem_allVars (mentions : p.Mentions m v) : v ∈ p.allVars := by
  obtain ⟨body, code, member⟩ := mentions
  refine List.mem_toFinset.mpr (List.mem_flatMap.mpr ⟨m, List.mem_range.mpr (lt_of_body? code), ?_⟩)
  exact List.mem_flatMap.mpr ⟨body, Option.mem_toList.mpr code, member⟩

theorem mentions_of_mem_allVars (member : v ∈ p.allVars) : ∃ m, p.Mentions m v := by
  obtain ⟨m, _, listed⟩ := List.mem_flatMap.mp (List.mem_toFinset.mp member)
  obtain ⟨body, code, member⟩ := List.mem_flatMap.mp listed
  exact ⟨m, body, Option.mem_toList.mp code, member⟩

theorem mem_allSites {site : StmtRef} {stmt : Stmt} (known : p.stmt? site = some stmt) :
    site ∈ p.allSites := by
  have inside : site.method < p.methods.size := by
    cases code : p.body? site.method with
    | none => simp [stmt?, stmts, code] at known
    | some body => exact lt_of_body? code
  refine List.mem_toFinset.mpr (List.mem_flatMap.mpr ⟨_, List.mem_range.mpr inside, ?_⟩)
  exact List.mem_map.mpr ⟨(site, stmt), mem_stmtRefs.mpr ⟨rfl, known⟩, rfl⟩

theorem declared?_mem (found : p.declared? c subsignature = some m) : m ∈ p.allMethods := by
  unfold declared? at found
  split at found
  · have test := List.find?_some found
    cases known : p.methods[m]? with
    | none => simp [known] at test
    | some decl => exact mem_allMethods known
  · cases found

theorem chainMethods_mem (listed : m ∈ p.chainMethods c subsignature) : m ∈ p.allMethods := by
  obtain ⟨d, _, found⟩ := List.mem_filterMap.mp listed
  exact declared?_mem found

theorem interfaceMethods_mem (listed : m ∈ p.interfaceMethods c subsignature) : m ∈ p.allMethods := by
  obtain ⟨d, _, found⟩ := List.mem_filterMap.mp listed
  exact declared?_mem found

theorem resolve?_mem {r : MethodRef} (resolved : p.resolve? r = some m) : m ∈ p.allMethods := by
  unfold resolve? at resolved
  split at resolved
  · next first =>
    cases resolved
    exact chainMethods_mem (List.mem_of_mem_head? first)
  · exact interfaceMethods_mem (List.mem_of_mem_head? resolved)

theorem callee?_mem {call : Invoke} {ty : Ty} (found : p.callee? call ty = some m) : m ∈ p.allMethods := by
  unfold callee? at found
  split at found
  · obtain ⟨c, _, found⟩ := Option.bind_eq_some_iff.mp found
    unfold dispatch? at found
    split at found
    · next chosen =>
      cases found
      exact chainMethods_mem (List.mem_of_find?_eq_some chosen)
    · exact interfaceMethods_mem (List.mem_of_find?_eq_some found)
  · exact resolve?_mem found

end Program

namespace Selector

variable {sel : Selector} {m : MethodId} {spec : ContextSpec}

def specs : Selector → List ContextSpec
  | limited spec | selective spec _ => [spec]
  | guided choices default => default :: choices.map Prod.snd

def depth (sel : Selector) : Nat := sel.specs.toFinset.sup ContextSpec.limit

theorem specOf?_mem (chosen : sel.specOf? m = some spec) : spec ∈ sel.specs := by
  cases sel with
  | limited only =>
    cases chosen
    exact List.mem_singleton.mpr rfl
  | selective only methods =>
    simp only [specOf?] at chosen
    split at chosen
    · cases chosen
      exact List.mem_singleton.mpr rfl
    · cases chosen
  | guided choices default =>
    cases chosen
    unfold Selector.chosen
    split
    · next found =>
      have listed := List.mem_reverse.mp (List.mem_of_find?_eq_some found)
      exact List.mem_cons_of_mem _ (List.mem_map.mpr ⟨_, listed, rfl⟩)
    · exact List.mem_cons_self

theorem limit_le_depth (chosen : sel.specOf? m = some spec) : spec.limit ≤ sel.depth :=
  Finset.le_sup (f := ContextSpec.limit) (List.mem_toFinset.mpr (specOf?_mem chosen))

end Selector

def Stmt.field? : Stmt → Option FieldId
  | loadField _ _ f | storeField _ f _ | loadStatic _ f | storeStatic f _ => some f
  | _ => none

/-- Finitely many objects and fields, among them all that the statements of a program make and
access. -/
structure World (p : Program) (sel : Selector) (rules : HeapRules) where
  objs : Finset Obj
  fields : Finset FieldId
  allocated : ∀ site lhs ty, p.stmt? site = some (.new lhs ty) → rules.allocated site ty ∈ objs
  constant : ∀ site lhs value, p.stmt? site = some (.literal lhs value) → value.isConstant = true →
    rules.constant value ∈ objs
  accessed : ∀ site stmt f, p.stmt? site = some stmt → stmt.field? = some f → f ∈ fields

namespace World

variable {p : Program} {sel : Selector} {rules : HeapRules} (W : World p sel rules) {c : ContextId} {o : CsObjId}
  {f : FieldId}

/-- What contexts are made of. Objects stand in them by their position. -/
def elems : Finset ContextElem :=
  p.allSites.image .callSite ∪ (Finset.range W.objs.card).image .object ∪
    (W.objs.image (typeOf? p)).eraseNone.image .type

def contexts : Finset Context := sequences W.elems sel.depth

def csObjs : Finset (ContextId × ObjId) := Finset.range W.contexts.card ×ˢ Finset.range W.objs.card

def csSites : Finset (ContextId × StmtRef) := Finset.range W.contexts.card ×ˢ p.allSites

def csMethods : Finset (ContextId × MethodId) := Finset.range W.contexts.card ×ˢ p.allMethods

def pointers : Finset Pointer :=
  (Finset.range W.contexts.card ×ˢ p.allVars).image (fun x => .var x.1 x.2) ∪
    (Finset.range W.csObjs.card ×ˢ W.fields).image (fun x => .field x.1 x.2) ∪
    (Finset.range W.csObjs.card).image .element ∪ W.fields.image .static

def HasContext (c : ContextId) : Prop := c < W.contexts.card

def HasObj (o : CsObjId) : Prop := o < W.csObjs.card

theorem mem_csObjs {o : ObjId} : (c, o) ∈ W.csObjs ↔ W.HasContext c ∧ o < W.objs.card := by
  simp [csObjs, HasContext]

theorem mem_csSites {site : StmtRef} : (c, site) ∈ W.csSites ↔ W.HasContext c ∧ site ∈ p.allSites := by
  simp [csSites, HasContext]

theorem mem_csMethods {m : MethodId} : (c, m) ∈ W.csMethods ↔ W.HasContext c ∧ m ∈ p.allMethods := by
  simp [csMethods, HasContext]

theorem var_mem {v : VarId} : .var c v ∈ W.pointers ↔ W.HasContext c ∧ v ∈ p.allVars := by
  simp [pointers, HasContext]

theorem field_mem : .field o f ∈ W.pointers ↔ W.HasObj o ∧ f ∈ W.fields := by
  simp [pointers, HasObj]

theorem element_mem : .element o ∈ W.pointers ↔ W.HasObj o := by
  simp [pointers, HasObj]

theorem static_mem : .static f ∈ W.pointers ↔ f ∈ W.fields := by
  simp [pointers]

theorem hasContext_empty : W.HasContext ContextTable.emptyId :=
  Finset.card_pos.mpr ⟨[], mem_sequences.mpr ⟨Nat.zero_le _, List.forall_mem_nil _⟩⟩

/-- An object that no statement allocates. Handlers and transfers make only such. -/
def Foreign (o : Obj) : Prop := o ∈ W.objs ∧ o.site? = none

/-- A transfer on an edge stays in the world. -/
def Carries : FlowLabel → Prop
  | .other info => ∀ t, info.transfer = some t → ∀ c o d o', W.HasContext c → o ∈ W.objs →
      t c o = some (d, o') → W.HasContext d ∧ W.Foreign o'
  | _ => True

def HasRef : ObjRef → Prop
  | .interned o => W.HasObj o
  | .described c o => W.HasContext c ∧ W.Foreign o

/-- Pointers are asked for by what they are, never by a handle. -/
def HasPointer : PointerRef → Prop
  | .interned _ => False
  | .var c v => W.HasContext c ∧ v ∈ p.allVars
  | .field r f => W.HasRef r ∧ f ∈ W.fields
  | .element r => W.HasRef r
  | .static f => f ∈ W.fields

structure HasEntry (entry : EntryPoint) : Prop where
  method : entry.method ∈ p.allMethods
  this : ∀ o ∈ entry.thisObjs, W.Foreign o
  params : ∀ x ∈ entry.params, W.Foreign x.2
  fields : ∀ x ∈ entry.fields, W.Foreign x.1 ∧ x.2.1 ∈ W.fields ∧ W.Foreign x.2.2
  elements : ∀ x ∈ entry.elements, W.Foreign x.1 ∧ W.Foreign x.2

def Takes : Command → Prop
  | .addPointsTo pointer objs => W.HasPointer pointer ∧ ∀ r ∈ objs, W.HasRef r
  | .addEntryPoint entry => W.HasEntry entry
  | .addFilter pointer _ => W.HasPointer pointer
  | .addFlow label source target => W.Carries label ∧ W.HasPointer source ∧ W.HasPointer target
  | .addCall _ c site callee receiver => W.HasContext c ∧ site ∈ p.allSites ∧ callee ∈ p.allMethods ∧
      ∀ r ∈ receiver, W.HasRef r
  | .propagate pointer => W.HasPointer pointer

end World

/-- Everything in the tables lies in the world. -/
structure Facts.Confined {p : Program} {sel : Selector} {rules : HeapRules} (W : World p sel rules)
    (f : Facts) : Prop where
  rules : f.heap.rules = rules
  objects : f.heap.objects.Within W.objs
  contexts : f.contexts.entries.Within W.contexts
  objs : f.elements.objs.Within W.csObjs
  sites : f.elements.sites.Within W.csSites
  methods : f.elements.methods.Within W.csMethods
  pointers : f.elements.pointers.Within W.pointers
  held : ∀ q o, f.elements.Holds q o → W.HasObj o

/-- An answer that stays in the world. -/
structure Reaction.Confined {p : Program} {sel : Selector} {rules : HeapRules} (W : World p sel rules)
    {σ : Type u} (good : σ → Prop) (r : Reaction σ) : Prop where
  state : good r.state
  created : ∀ o ∈ r.created, W.Foreign o
  commands : ∀ c ∈ r.commands, W.Takes c

/-- A world that the handlers of a setup never leave. At the end of a phase they ask for nothing. -/
structure Confinement {σ : Type u} (cx : Setup σ) (rules : HeapRules) where
  world : World cx.program cx.selector rules
  Good : σ → Prop
  react : ∀ e f h, f.Confined world →
    (∀ q delta, e = .arrived q delta → ∀ o ∈ delta, world.HasObj o) → Good h →
    (cx.handlers.react e f h).Confined world Good
  phaseEnd : ∀ n f h, Good h → cx.handlers.phaseEnd f n h = { state := h }

end PointsTo
