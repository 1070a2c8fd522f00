import PointsTo.Proofs.Conservation

/-!
Merging strings is a sound abstraction. Replacing each allocated string by the merged object of its
class, in items and inside contexts, is a map between the runs without and with merging: it keeps types
and all that handlers make. Contexts made of types are left out, for a merged object has no class that
allocates it.
-/
namespace PointsTo

def stringClassNames : List String :=
  ["java.lang.String", "java.lang.StringBuilder", "java.lang.StringBuffer"]

/-- The type of one of the classes whose objects a heap may merge. -/
def Program.StringTy (p : Program) (ty : Ty) : Prop :=
  ∃ name ∈ stringClassNames, (p.classByName? name).map Ty.cls = some ty

instance (p : Program) (ty : Ty) : Decidable (p.StringTy ty) :=
  inferInstanceAs (Decidable (∃ name ∈ stringClassNames, (p.classByName? name).map Ty.cls = some ty))

/-- An allocated string becomes the one object of its class; every other object stays as it is. -/
def Obj.merged (p : Program) (o : Obj) : Obj :=
  if o.site?.isSome ∧ p.StringTy o.ty then .mock .mergedString (.type o.ty) o.ty else o

def FrameElem.merged (p : Program) : FrameElem → FrameElem
  | callSite site => .callSite site
  | object o => .object (o.merged p)
  | type c => .type c

def Frame.merged (p : Program) (f : Frame) : Frame := f.map (FrameElem.merged p)

/-- A fact with merged strings for the allocated ones, inside contexts too. -/
def Fact.merged (p : Program) (x : Fact) : Fact :=
  (x.reframe (Frame.merged p) (Frame.merged p)).replace (Obj.merged p)

variable {p : Program}

theorem HeapRules.merges_ofProgram (mergeStrings : Bool) (ty : Ty) :
    (ofProgram p mergeStrings).merges ty = true ↔ mergeStrings = true ∧ p.StringTy ty := by
  cases ty <;> simp [merges, ofProgram, Program.StringTy, stringClassNames, Option.map_eq_some_iff]

namespace Obj

theorem merged_of_unallocated {o : Obj} (made : o.site? = none) : o.merged p = o := by
  simp [merged, made]

theorem merged_ty (o : Obj) : (o.merged p).ty = o.ty := by
  unfold merged
  split <;> rfl

theorem merged_constant? (o : Obj) : (o.merged p).constant? = o.constant? := by
  unfold merged
  split
  · next allocated =>
    obtain ⟨site, known⟩ := Option.isSome_iff_exists.mp allocated.1
    cases origin : o.origin with
    | allocated site => simp [constant?, origin, mock]
    | _ => simp [site?, origin] at known
  · rfl

theorem merged_allocated (site : StmtRef) (ty : Ty) :
    ((HeapRules.ofProgram p false).allocated site ty).merged p =
      (HeapRules.ofProgram p true).allocated site ty := by
  have separate : (HeapRules.ofProgram p false).allocated site ty = ⟨.allocated site, ty⟩ :=
    if_neg (by simp [HeapRules.merges_ofProgram])
  rw [separate]
  by_cases string : p.StringTy ty
  · simp [merged, HeapRules.allocated, HeapRules.merges_ofProgram, site?, string]
  · simp [merged, HeapRules.allocated, HeapRules.merges_ofProgram, string]

end Obj

namespace Frame

theorem merged_recent (k : Nat) (f : Frame) : merged p (recent k f) = recent k (merged p f) := by
  simp [merged, recent, List.map_drop]

theorem merged_snoc (f : Frame) (x : FrameElem) : merged p (f ++ [x]) = merged p f ++ [x.merged p] := by
  simp [merged]

end Frame

/-- The context of a callee is chosen alike for merged strings, unless contexts are made of types. -/
theorem ContextSpec.calleeFrame_merged {spec : ContextSpec} (untyped : ∀ k, spec ≠ .type k) (caller : Frame)
    (site : StmtRef) (receiver : Option Item) :
    Frame.merged p (spec.calleeFrame p caller site receiver) =
      spec.calleeFrame p (Frame.merged p caller) site
        (receiver.map fun r => ⟨Frame.merged p r.frame, r.obj.merged p⟩) := by
  cases spec with
  | insensitive => rfl
  | callSite k =>
    simp only [calleeFrame, Frame.merged_recent, Frame.merged_snoc]
    rfl
  | object k =>
    cases receiver with
    | none => exact Frame.merged_recent k caller
    | some r =>
      simp only [Option.map_some, calleeFrame, Frame.merged_recent, Frame.merged_snoc]
      rfl
  | type k => exact absurd rfl (untyped k)

def Morphism.merging (p : Program) {spec : ContextSpec} (untyped : ∀ k, spec ≠ .type k) :
    Morphism p (HeapRules.ofProgram p false) (HeapRules.ofProgram p true) (.limited spec) (.limited spec) where
  frame := Frame.merged p
  heap := Frame.merged p
  obj := Obj.merged p
  Fits _ := True
  frame_nil := rfl
  heap_nil := rfl
  ty := Obj.merged_ty
  constant? := Obj.merged_constant?
  unallocated _ := Obj.merged_of_unallocated
  allocated := Obj.merged_allocated
  constant value := by cases value <;> rfl
  fits_plain _ := trivial
  fits_new _ _ _ _ _ := trivial
  callee c site _ := ContextSpec.calleeFrame_merged untyped c site none
  calleeOn c site r _ _ := ContextSpec.calleeFrame_merged untyped c site (some r)
  heapFrame c _ := Frame.merged_recent _ c

namespace Analysis

variable {a : Analysis} {o : Options} {spec : ContextSpec} {r s : Result}

theorem solve_merges (registered : a.registry = Registry.builtin) (declared : a.program.Scoped)
    (untainted : o.taintConfig = none) (untyped : ∀ k, spec ≠ .type k)
    (apart : a.solve { o with mergeStrings := false } (.limited spec) = .ok r)
    (together : a.solve { o with mergeStrings := true } (.limited spec) = .ok s) :
    r.facts.Spelled ∧ ∀ x, r.facts.Found x → s.facts.Found (x.merged a.program) := by
  obtain ⟨chain, t, made, run, facts⟩ := solve_ok registered apart
  obtain ⟨chain', t', made', run', facts'⟩ := solve_ok registered together
  obtain rfl : chain = chain' := Except.ok.inj (made.symm.trans made')
  rw [facts, facts']
  exact ⟨(Registry.solved_satisfied made untainted declared run).1, fun x found =>
    (Morphism.merging a.program untyped).contains made untainted declared run run' found⟩

theorem run_limited (known : o.spec = .ok spec) (plain : o.advanced = none) (ran : a.run o = .ok r) :
    a.solve o (.limited spec) = .ok r := by
  obtain ⟨_, spec', advanced, sel, known', choice, chosen, solved⟩ := run_eq_ok.mp ran
  obtain rfl := Except.ok.inj (known.symm.trans known')
  rw [Options.advanced?, plain] at choice
  cases choice
  cases chosen
  exact solved

/-- Merging strings is sound: without contexts, with those made of call sites and with those made of objects,
all that an analysis finds, told by names, is found by the analysis that merges strings once the allocated
strings are replaced by the merged ones; and both analyses return. -/
theorem string_merging_sound (registered : a.registry = Registry.builtin) (declared : a.program.Scoped)
    (known : o.spec = .ok spec) (untyped : ∀ k, spec ≠ .type k) (untainted : o.taintConfig = none)
    (plain : o.advanced = none) :
    (∀ r s, a.run { o with mergeStrings := false } = .ok r → a.run { o with mergeStrings := true } = .ok s →
      r.facts.Spelled ∧ ∀ x, r.facts.Found x → s.facts.Found (x.merged a.program)) ∧
    ∀ chain, a.registry.chain a.program o a.files = .ok chain → o.validate = .ok () → ∃ n, ∀ limit, n ≤ limit →
      ∃ r s, { a with stepLimit := limit }.run { o with mergeStrings := false } = .ok r ∧
        { a with stepLimit := limit }.run { o with mergeStrings := true } = .ok s := by
  constructor
  · intro r s apart together
    exact solve_merges registered declared untainted untyped (run_limited known plain apart)
      (run_limited known plain together)
  · intro chain made valid
    rw [registered] at made
    -- neither the handlers nor the faults of options depend on merging
    exact runs_return (o := { o with mergeStrings := false }) registered made valid made valid

/-- Two labels are written out and filled, in one method, each with a builder of its own. -/
def labels : Program where
  classes := #[⟨"Object", none, [], false, false, true, [], []⟩,
    ⟨"java.lang.String", some 0, [], false, false, true, [0, 1], [0]⟩,
    ⟨"java.lang.StringBuilder", some 0, [], false, false, true, [], []⟩]
  fields := #[⟨"builder", 1, .cls 2, false⟩]
  methods := #[
    .routine 1 "fill" "void fill()" (some 0) [0, 1] [.new 1 (.cls 2), .storeField 0 0 1],
    .routine 1 "main" "void main()" none [2, 3, 4]
      [.new 2 (.cls 1), .new 3 (.cls 1), .copy 4 2, .copy 4 3,
        .invoke ⟨.virtual, ⟨1, "void fill()"⟩, some 2, [], none⟩,
        .invoke ⟨.virtual, ⟨1, "void fill()"⟩, some 3, [], none⟩]]
  vars := #[⟨"this", .cls 1, 0⟩, ⟨"builder", .cls 2, 0⟩, ⟨"label", .cls 1, 1⟩, ⟨"label2", .cls 1, 1⟩,
    ⟨"either", .cls 1, 1⟩]
  main := some 1

def labelAnalysis : Analysis := { program := labels, files := { root := "" }, stepLimit := 400 }

def labelOptions : Options := { cs := "2-obj", implicitEntries := false }

/-- With contexts made of strings the labels are told apart, and become one when strings are merged. -/
theorem labels_merge : ∃ r s, labelAnalysis.run { labelOptions with mergeStrings := false } = .ok r ∧
    labelAnalysis.run { labelOptions with mergeStrings := true } = .ok s ∧ (r.pointsTo 4).length = 2 ∧
    (s.pointsTo 4).length = 1 ∧ ∀ x, r.facts.Found x → s.facts.Found (x.merged labels) := by
  obtain ⟨r, apart, two⟩ := count?_eq_some (show count?
    (labelAnalysis.run { labelOptions with mergeStrings := false }) 4 = some 2 by decide +kernel)
  obtain ⟨s, together, one⟩ := count?_eq_some (show count?
    (labelAnalysis.run { labelOptions with mergeStrings := true }) 4 = some 1 by decide +kernel)
  have spec : labelOptions.spec = .ok (.object 2) := by decide +kernel
  exact ⟨r, s, apart, together, two, one,
    ((string_merging_sound rfl (by decide) spec nofun rfl rfl).1 r s apart together).2⟩

end Analysis

end PointsTo
