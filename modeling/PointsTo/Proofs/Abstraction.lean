import PointsTo.Proofs.Cleanness
import PointsTo.Proofs.Contract

/-!
Maps of contexts and objects that selectors and heaps respect. Facts whose images are found under one
selector and heap are closed under the rules of the other, and satisfy the same handlers.
-/
namespace PointsTo

section Reframe

variable (frame heap : Frame → Frame)

def Item.reframe (i : Item) : Item := ⟨heap i.frame, i.obj⟩

def Cell.reframe : Cell → Cell
  | var c v => .var (frame c) v
  | field b f => .field (b.reframe heap) f
  | element b => .element (b.reframe heap)
  | static f => .static f

def Fact.reframe : Fact → Fact
  | points x i => .points (x.reframe frame heap) (i.reframe heap)
  | reached c m => .reached (frame c) m
  | called kind c site d m => .called kind (frame c) site (frame d) m
  | admitted x y i => .admitted (x.reframe frame heap) (y.reframe frame heap) (i.reframe heap)

end Reframe

section Replace

variable (obj : Obj → Obj)

def Item.replace (i : Item) : Item := ⟨i.frame, obj i.obj⟩

def Cell.replace : Cell → Cell
  | var c v => .var c v
  | field b f => .field (b.replace obj) f
  | element b => .element (b.replace obj)
  | static f => .static f

def Fact.replace : Fact → Fact
  | points x i => .points (x.replace obj) (i.replace obj)
  | reached c m => .reached c m
  | called kind c site d m => .called kind c site d m
  | admitted x y i => .admitted (x.replace obj) (y.replace obj) (i.replace obj)

end Replace

theorem Cell.replace_self (x : Cell) : x.replace (fun o => o) = x := by
  cases x <;> rfl

theorem Fact.replace_self (x : Fact) : x.replace (fun o => o) = x := by
  cases x with
  | points x i => rw [replace, x.replace_self]; rfl
  | reached c m => rfl
  | called kind c site d m => rfl
  | admitted x y i => rw [replace, x.replace_self, y.replace_self]; rfl

/-- Maps of frames and of objects that take the choices of one selector and the objects of one heap to those
of others, for items of a certain kind. Only what statements allocate may become another object. -/
structure Morphism (p : Program) (rules rules' : HeapRules) (fine coarse : Selector) where
  frame : Frame → Frame
  heap : Frame → Frame
  obj : Obj → Obj
  Fits : Item → Prop
  frame_nil : frame [] = []
  heap_nil : heap [] = []
  ty : ∀ o, (obj o).ty = o.ty
  constant? : ∀ o, (obj o).constant? = o.constant?
  unallocated : ∀ o, o.site? = none → obj o = o
  allocated : ∀ site ty, obj (rules.allocated site ty) = rules'.allocated site ty
  constant : ∀ value, rules'.constant value = rules.constant value
  fits_plain : ∀ o, Fits ⟨[], o⟩
  fits_new : ∀ c site lhs ty, p.stmt? site = some (.new lhs ty) →
    Fits ⟨fine.heapFrame c site.method, rules.allocated site ty⟩
  callee : ∀ c site m, frame (fine.calleeFrame p c site none m) = coarse.calleeFrame p (frame c) site none m
  calleeOn : ∀ c site r m, Fits r → frame (fine.calleeFrame p c site (some r) m) =
    coarse.calleeFrame p (frame c) site (some ⟨heap r.frame, obj r.obj⟩) m
  heapFrame : ∀ c m, heap (fine.heapFrame c m) = coarse.heapFrame (frame c) m

namespace Morphism

variable {p : Program} {rules rules' : HeapRules} {fine coarse : Selector}
  (M : Morphism p rules rules' fine coarse) {holds : Fact → Prop}

abbrev item (i : Item) : Item := (i.reframe M.heap).replace M.obj

abbrev cell (x : Cell) : Cell := (x.reframe M.frame M.heap).replace M.obj

abbrev fact (x : Fact) : Fact := (x.reframe M.frame M.heap).replace M.obj

/-- The facts whose images are in a set, with items that fit. -/
def Under (holds : Fact → Prop) (x : Fact) : Prop := holds (M.fact x) ∧ ∀ i ∈ x.held?, M.Fits i

variable {M} {x : Cell} {i : Item} {o : Obj}

theorem Under.fits (under : M.Under holds (.points x i)) : M.Fits i :=
  under.2 i rfl

theorem under_points (image : holds (.points (M.cell x) (M.item i))) (fits : M.Fits i) :
    M.Under holds (.points x i) :=
  ⟨image, fun _ same => Option.some.inj same ▸ fits⟩

theorem under_of {x : Fact} (image : holds (M.fact x)) (none : x.held? = none) : M.Under holds x :=
  ⟨image, fun i same => by rw [none] at same; cases same⟩

variable (M)

theorem item_ty (i : Item) : (M.item i).obj.ty = i.obj.ty := M.ty i.obj

theorem cell_var (c : Frame) (v : VarId) : M.cell (.var c v) = .var (M.frame c) v := rfl

theorem item_plain (made : o.site? = none) : M.item ⟨[], o⟩ = ⟨[], o⟩ := by
  simp only [item, Item.reframe, Item.replace, M.heap_nil, M.unallocated o made]

theorem under_plain (made : o.site? = none) (image : holds (.points (M.cell x) ⟨[], o⟩)) :
    M.Under holds (.points x ⟨[], o⟩) :=
  under_points (by rw [M.item_plain made]; exact image) (M.fits_plain o)

theorem under_reached {m : MethodId} (image : holds (.reached [] m)) : M.Under holds (.reached [] m) :=
  under_of (by rw [fact, Fact.reframe, M.frame_nil]; exact image) rfl

theorem moves?_frame (stmt : Stmt) (c : Frame) :
    stmt.moves? (M.frame c) = (stmt.moves? c).map fun (x, y) => (M.cell x, M.cell y) := by
  cases stmt <;> rfl

theorem accesses?_frame (stmt : Stmt) (c : Frame) (b : Item) :
    stmt.accesses? (M.frame c) (M.item b) =
      (stmt.accesses? c b).map fun (x, y) => (M.cell x, M.cell y) := by
  cases stmt <;> rfl

theorem closed (closed : Closed (Rule p coarse rules') holds) : Closed (Rule p fine rules) (M.Under holds) := by
  intro premises fact rule known
  have head : ∀ {a l}, premises = a :: l → M.Under holds a := fun same => known _ (by simp [same])
  have second : ∀ {a b l}, premises = a :: b :: l → M.Under holds b := fun same => known _ (by simp [same])
  have third : ∀ {a b c l}, premises = a :: b :: c :: l → M.Under holds c :=
    fun same => known _ (by simp [same])
  cases rule with
  | new stmt =>
    refine under_points ?_ (M.fits_new _ _ _ _ stmt)
    rw [item, Item.reframe, Item.replace, M.heapFrame, M.allocated]
    exact closed.one (.new stmt) (head rfl).1
  | literal stmt constant =>
    refine M.under_plain rfl ?_
    rw [← M.constant]
    exact closed.one (.literal stmt constant) (head rfl).1
  | move stmt moves =>
    have moves' := M.moves?_frame _ _ ▸ congrArg (Option.map fun (x, y) => (M.cell x, M.cell y)) moves
    exact under_points (closed.two (.move stmt moves') (head rfl).1 (second rfl).1) (second rfl).fits
  | cast stmt fits =>
    rw [← M.item_ty] at fits
    exact under_points (closed.two (.cast stmt fits) (head rfl).1 (second rfl).1) (second rfl).fits
  | access stmt on accesses =>
    have accesses' := M.accesses?_frame _ _ _ ▸
      congrArg (Option.map fun (x, y) => (M.cell x, M.cell y)) accesses
    exact under_points (closed.three (.access stmt on accesses') (head rfl).1 (second rfl).1 (third rfl).1)
      (third rfl).fits
  | callStatic stmt static resolved =>
    refine under_of ?_ rfl
    rw [Morphism.fact, Fact.reframe, M.callee]
    exact closed.one (.callStatic stmt static resolved) (head rfl).1
  | callOn stmt on real resolved =>
    refine under_of ?_ rfl
    rw [Morphism.fact, Fact.reframe, M.calleeOn _ _ _ _ (second rfl).fits]
    rw [← M.item_ty] at real resolved
    exact closed.two (.callOn stmt on real resolved) (head rfl).1 (second rfl).1
  | admits stmt on real resolved receives =>
    refine under_of ?_ rfl
    rw [Morphism.fact, Fact.reframe, Cell.reframe, Cell.reframe, M.calleeOn _ _ _ _ (second rfl).fits]
    rw [← M.item_ty] at real resolved
    exact closed.two (.admits stmt on real resolved receives) (head rfl).1 (second rfl).1
  | pass => exact under_points (closed.two .pass (head rfl).1 (second rfl).1) (second rfl).fits
  | reach => exact under_of (closed.one .reach (head rfl).1) rfl
  | param passes calls code pair =>
    exact under_points (closed.two (.param passes calls code pair) (head rfl).1 (second rfl).1)
      (second rfl).fits
  | ret passes calls code answer returns =>
    exact under_points (closed.two (.ret passes calls code answer returns) (head rfl).1 (second rfl).1)
      (second rfl).fits

/-- What an entry point gives lies in empty contexts and is allocated by no statement, so it stays as it is. -/
theorem under_gives {entry : EntryPoint} (made : ∀ o ∈ entry.objs, o.site? = none)
    (given : ∀ x, entry.Gives p x → holds x) : ∀ x, entry.Gives p x → M.Under holds x := by
  intro x gives
  obtain ⟨this, params, fields, elements⟩ := EntryPoint.forall_mem_objs.mp made
  have image := given x gives
  cases gives with
  | reached => exact M.under_reached image
  | this _ _ listed =>
    refine M.under_plain (this _ listed) ?_
    rw [M.cell_var, M.frame_nil]
    exact image
  | param _ _ listed =>
    refine M.under_plain (params _ listed) ?_
    rw [M.cell_var, M.frame_nil]
    exact image
  | @field _ base o f _ listed =>
    obtain ⟨base', o'⟩ := fields _ listed
    refine M.under_plain o' ?_
    show holds (.points (.field (M.item ⟨[], base⟩) f) ⟨[], o⟩)
    rw [M.item_plain base']
    exact image
  | @element _ array o _ listed =>
    obtain ⟨array', o'⟩ := elements _ listed
    refine M.under_plain o' ?_
    show holds (.points (.element (M.item ⟨[], array⟩)) ⟨[], o⟩)
    rw [M.item_plain array']
    exact image

theorem thrown {c : Frame} {site : StmtRef} (thrown : Thrown p (M.Under holds) c site i) :
    Thrown p holds (M.frame c) site (M.item i) ∧ M.Fits i := by
  induction thrown with
  | here stmt points => exact ⟨.here stmt points.1, points.fits⟩
  | through _ free called ih =>
    rw [← M.item_ty] at free
    exact ⟨.through ih.1 free called.1, ih.2⟩

theorem natives {s : Natives} (satisfied : s.Satisfied p holds) : s.Satisfied p (M.Under holds) := by
  have made : ∀ {c : ModeledCall NativeModel} {copy : Obj}, Natives.copyObj? p c = some copy →
      copy.site? = none := by
    intro c copy copied
    obtain ⟨decl, _, rfl⟩ := Option.map_eq_some_iff.mp copied
    rfl
  constructor
  case copies =>
    intro c models key copy copied result answer frame reached
    exact M.under_plain (made copied) (satisfied.copies c models key copy copied result answer _ reached.1)
  case copied =>
    intro c models key copy copied arg first frame i j points held
    refine under_points ?_ held.fits
    show holds (.points (.element (M.item ⟨[], copy⟩)) (M.item j))
    rw [M.item_plain (made copied)]
    exact satisfied.copied c models key copy copied arg first _ _ _ points.1 held.1
  case cloned =>
    intro c models key base result on answer frame i reached points
    exact under_points (satisfied.cloned c models key base result on answer _ _ reached.1 points.1) points.fits
  case crossed =>
    intro c models key source target first third frame i j k points points' held
    exact under_points
      (satisfied.crossed c models key source target first third _ _ _ _ points.1 points'.1 held.1) held.fits

section Reflection

theorem namedClass?_obj (o : Obj) : Reflection.namedClass? p (M.obj o) = Reflection.namedClass? p o := by
  rw [Reflection.namedClass?, M.constant?, Reflection.namedClass?]

theorem instantiable?_obj (o : Obj) : Reflection.instantiable? p (M.obj o) = Reflection.instantiable? p o := by
  rw [Reflection.instantiable?, M.constant?, Reflection.instantiable?]

theorem classObj?_obj (o : Obj) : Reflection.classObj? rules' (M.obj o) = Reflection.classObj? rules o := by
  simp only [Reflection.classObj?, M.ty, M.constant]

theorem lookedUp_obj (s : Reflection) (site : StmtRef) (o : Obj) :
    s.lookedUp p rules' site (M.obj o) = s.lookedUp p rules site o := by
  simp only [Reflection.lookedUp, M.namedClass?_obj, M.constant]

theorem reflection {s : Reflection} (satisfied : s.Satisfied p coarse rules' holds) :
    s.Satisfied p fine rules (M.Under holds) where
  lookUp := by
    intro c made key arg result first answer frame i points
    obtain ⟨found, inits⟩ := satisfied.lookUp c made key arg result first answer _ _ points.1
    have same : s.lookedUp p rules' c.site (M.item i).obj = s.lookedUp p rules c.site i.obj :=
      M.lookedUp_obj s c.site i.obj
    rw [same] at found
    refine ⟨M.under_plain Reflection.lookedUp_site? found, fun cls names m initializes => ?_⟩
    exact M.under_reached (inits cls (M.namedClass?_obj i.obj ▸ names) m initializes)
  makes := by
    intro c made key base result on answer frame i points cls makes
    rw [← M.instantiable?_obj] at makes
    exact M.under_plain rfl (satisfied.makes c made key base result on answer _ _ points.1 cls makes)
  constructs := by
    intro c made key base result on answer frame i points cls makes init declares
    rw [← M.instantiable?_obj] at makes
    obtain ⟨called, receives⟩ :=
      satisfied.constructs c made key base result on answer _ _ points.1 cls makes init declares
    have same : M.frame (fine.calleeFrame p frame c.site (some ⟨[], Reflection.instance_ c.site cls⟩) init) =
        coarse.calleeFrame p (M.frame frame) c.site (some ⟨[], Reflection.instance_ c.site cls⟩) init := by
      rw [M.calleeOn _ _ _ _ (M.fits_plain _), M.heap_nil, M.unallocated _ rfl]
    refine ⟨under_of ?_ rfl, fun this this? => M.under_plain rfl ?_⟩
    · rw [fact, Fact.reframe, same]
      exact called
    · rw [M.cell_var, same]
      exact receives this this?
  classes := by
    intro c made key base result on answer frame i points k has
    rw [← M.classObj?_obj] at has
    refine M.under_plain ?_ (satisfied.classes c made key base result on answer _ _ points.1 k has)
    rw [Reflection.classObj?_eq_some has]
    rfl
  unknown := fun c made unknown result answer frame reached =>
    M.under_plain rfl (satisfied.unknown c made unknown result answer _ reached.1)

end Reflection

theorem literals {accepts : Literal → Bool} {obj? : VarId → Literal → Option Obj}
    (made : ∀ v value o, obj? v value = some o → o.site? = none)
    (satisfied : LiteralAssigns.Satisfied p accepts obj? holds) :
    LiteralAssigns.Satisfied p accepts obj? (M.Under holds) := by
  intro site v value o stmt accepted known c reached
  exact M.under_plain (made v value o known) (satisfied site v value o stmt accepted known _ reached.1)

theorem threads {t : ThreadMethods} (satisfied : t.Satisfied p rules' holds) :
    t.Satisfied p rules (M.Under holds) where
  starts := by
    intro implicit entry listed
    have made : ∀ o ∈ entry.objs, o.site? = none := by
      obtain ⟨entry', same, given⟩ := Threads.start_objs listed
      cases same
      intro o member
      exact Threads.start_site? o (given o member)
    have same : Threads.start rules { methods := t } = Threads.start rules' { methods := t } := by
      simp only [Threads.start, M.constant]
    rw [same] at listed
    exact M.under_gives made (satisfied.starts implicit entry listed)
  main := fun implicit m v current c reached =>
    M.under_plain rfl (satisfied.main implicit m v current _ reached.1)
  started := fun w m v there current c d i points reached =>
    under_points (satisfied.started w m v there current _ _ _ points.1 reached.1) points.fits

theorem satisfied {h : Handler} (satisfied : h.Satisfied p coarse rules' holds) :
    h.Satisfied p fine rules (M.Under holds) := by
  cases h with
  | timer => trivial
  | warnings s => trivial
  | entries s =>
    exact ⟨fun m listed => M.under_gives (fun o given => Entries.mocked_site? o given)
      (satisfied.entries m listed), fun m listed => M.under_reached (satisfied.implicit m listed)⟩
  | initializers s =>
    exact fun c m d i reached needed initializes =>
      M.under_reached (satisfied _ m d i reached.1 needed initializes)
  | threads s => exact M.threads satisfied
  | natives s => exact M.natives satisfied
  | exceptions s =>
    intro c site i h thrown taken
    obtain ⟨thrown', fits⟩ := M.thrown thrown
    rw [← M.item_ty] at taken
    exact under_points (satisfied _ site _ h thrown' taken) fits
  | reflection s => exact M.reflection satisfied
  | nulls s => exact M.literals (fun _ _ _ made => by cases made; rfl) satisfied
  | numbers s => exact M.literals (fun _ _ _ made => numberObj?_site? made) satisfied
  | taint s => exact satisfied
  | script s => exact satisfied

end Morphism

end PointsTo
