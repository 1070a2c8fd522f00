import PointsTo.Proofs.Refinement

/-!
Longer contexts only refine. Cutting the contexts of methods to a bound, and those of objects to one
element less, takes the choices under one more element to the choices under the bound. Objects without a
class to stand for them in contexts made of types would break this, but they are never allocated.
-/
namespace PointsTo

namespace Frame

variable {j k : Nat}

theorem recent_zero (f : Frame) : recent 0 f = [] := by
  simp [recent]

theorem recent_nil (k : Nat) : recent k [] = [] := by
  simp [recent]

theorem recent_recent (fewer : j ≤ k) (f : Frame) : recent j (recent k f) = recent j f := by
  unfold recent
  rw [List.drop_drop, List.length_drop]
  congr 1
  omega

theorem recent_snoc (k : Nat) (f : Frame) (x : FrameElem) :
    recent (k + 1) (f ++ [x]) = recent k f ++ [x] := by
  unfold recent
  rw [List.length_append, List.length_singleton, Nat.add_sub_add_right,
    List.drop_append_of_le_length (Nat.sub_le _ _)]

/-- Appending to a cut frame and cutting gives what appending to the whole frame and cutting gives. -/
theorem recent_append_recent (fewer : k ≤ j + 1) (f : Frame) (x : FrameElem) :
    recent k (recent j f ++ [x]) = recent k (f ++ [x]) := by
  cases k with
  | zero => rw [recent_zero, recent_zero]
  | succ k => rw [recent_snoc, recent_snoc, recent_recent (by omega)]

theorem recent_appended (fewer : k ≤ j + 1) (f : Frame) (x : FrameElem) :
    recent k (recent (k + 1) (f ++ [x])) = recent k (recent j f ++ [x]) := by
  rw [recent_recent (Nat.le_succ k), recent_append_recent fewer]

end Frame

inductive ContextKind
  | callSite | object | type
  deriving DecidableEq

/-- The variant of a kind with a bound on the length of contexts; without length there are no contexts. -/
def ContextKind.spec (kind : ContextKind) : Nat → ContextSpec
  | 0 => .insensitive
  | k + 1 => match kind with
    | callSite => .callSite (k + 1)
    | object => .object (k + 1)
    | type => .type (k + 1)

theorem ContextKind.limit_spec (kind : ContextKind) (k : Nat) : (kind.spec k).limit = k := by
  cases k with
  | zero => rfl
  | succ k => cases kind <;> rfl

namespace Truncation

variable {p : Program} {caller : Frame} {site : StmtRef}

/-- Objects with a heap context have a class to stand for them in contexts made of types. -/
def Fits (p : Program) (i : Item) : Prop := i.frame = [] ∨ (typeOf? p i.obj).isSome = true

theorem fits_allocated (mergeStrings : Bool) {ty : Ty} {lhs : VarId} (frame : Frame)
    (stmt : p.stmt? site = some (.new lhs ty)) :
    Fits p ⟨frame, (HeapRules.ofProgram p mergeStrings).allocated site ty⟩ := by
  refine Or.inr ?_
  unfold HeapRules.allocated
  split
  · next merged =>
    cases ty with
    | cls c => rfl
    | _ => cases merged
  · -- the allocating method has a body, so it is declared by some class
    obtain ⟨body, code, _⟩ := Program.mentions_of_stmt stmt (Or.inr rfl)
    obtain ⟨decl, known, _⟩ := Option.bind_eq_some_iff.mp code
    simp [typeOf?, Obj.container?, Program.ownerOf?, known]

theorem calleeFrame_none (kind : ContextKind) (k : Nat) :
    Frame.recent k ((kind.spec (k + 1)).calleeFrame p caller site none) =
      (kind.spec k).calleeFrame p (Frame.recent k caller) site none := by
  cases k with
  | zero => exact Frame.recent_zero _
  | succ k =>
    cases kind with
    | callSite => exact Frame.recent_appended (Nat.le_succ _) _ _
    | object => exact (Frame.recent_recent (by omega) _).trans (Frame.recent_recent (by omega) _).symm
    | type => exact (Frame.recent_recent (by omega) _).trans (Frame.recent_recent (by omega) _).symm

theorem calleeFrame_some (kind : ContextKind) (k : Nat) {r : Item} (fits : Fits p r) :
    Frame.recent k ((kind.spec (k + 1)).calleeFrame p caller site (some r)) =
      (kind.spec k).calleeFrame p (Frame.recent k caller) site (some ⟨Frame.recent (k - 1) r.frame, r.obj⟩) := by
  cases k with
  | zero => exact Frame.recent_zero _
  | succ k =>
    cases kind with
    | callSite => exact Frame.recent_appended (Nat.le_succ _) _ _
    | object => exact Frame.recent_appended (Nat.le_refl _) _ _
    | type =>
      simp only [ContextKind.spec, ContextSpec.calleeFrame, Nat.add_sub_cancel]
      cases known : typeOf? p r.obj with
      | some c => exact Frame.recent_appended (Nat.le_refl _) _ _
      | none =>
        have empty : r.frame = [] := fits.resolve_right (by rw [known]; nofun)
        show Frame.recent (k + 1) (Frame.recent (k + 2) r.frame) =
          Frame.recent (k + 1) (Frame.recent k r.frame)
        simp only [empty, Frame.recent_nil]

end Truncation

/-- Contexts with one element more may be cut to the bound. -/
def Morphism.cutting (p : Program) (mergeStrings : Bool) (kind : ContextKind) (k : Nat) :
    Morphism p (HeapRules.ofProgram p mergeStrings) (HeapRules.ofProgram p mergeStrings)
      (.limited (kind.spec (k + 1))) (.limited (kind.spec k)) where
  frame := Frame.recent k
  heap := Frame.recent (k - 1)
  obj := id
  Fits := Truncation.Fits p
  frame_nil := Frame.recent_nil k
  heap_nil := Frame.recent_nil (k - 1)
  ty _ := rfl
  constant? _ := rfl
  unallocated _ _ := rfl
  allocated _ _ := rfl
  constant _ := rfl
  fits_plain _ := Or.inl rfl
  fits_new _ _ _ _ stmt := Truncation.fits_allocated mergeStrings _ stmt
  callee _ _ _ := Truncation.calleeFrame_none kind k
  calleeOn _ _ _ _ fits := Truncation.calleeFrame_some kind k fits
  heapFrame c _ := by
    simp only [Selector.heapFrame, Selector.specOf?, ContextKind.limit_spec, Nat.add_sub_cancel]

/-- Longer contexts only refine: whatever is found with contexts of up to `k + 1` elements, told by names, is
found with contexts of up to `k` elements once the contexts of methods are cut to their last `k` elements and
those of objects to their last `k - 1`; and both runs return. -/
theorem Analysis.longer_contexts_refine {a : Analysis} {o : Options}
    (registered : a.registry = Registry.builtin) (untainted : o.taintConfig = none)
    (declared : a.program.Scoped) (kind : ContextKind) (k : Nat) :
    (∀ r s, a.solve o (.limited (kind.spec (k + 1))) = .ok r → a.solve o (.limited (kind.spec k)) = .ok s →
      r.facts.Spelled ∧
        ∀ x, r.facts.Found x → s.facts.Found (x.reframe (Frame.recent k) (Frame.recent (k - 1)))) ∧
      ∀ chain, a.registry.chain a.program o a.files = .ok chain → ∃ n, ∀ limit, n ≤ limit → ∃ r s,
        { a with stepLimit := limit }.solve o (.limited (kind.spec (k + 1))) = .ok r ∧
          { a with stepLimit := limit }.solve o (.limited (kind.spec k)) = .ok s := by
  constructor
  · intro r s solved solved'
    obtain ⟨chain, t, made, run, facts⟩ := solve_ok registered solved
    obtain ⟨chain', t', made', run', facts'⟩ := solve_ok registered solved'
    obtain rfl := Except.ok.inj (made.symm.trans made')
    rw [facts, facts']
    refine ⟨(Registry.solved_satisfied made untainted declared run).1, fun x found => ?_⟩
    rw [← (x.reframe (Frame.recent k) (Frame.recent (k - 1))).replace_self]
    exact (Morphism.cutting a.program o.mergeStrings kind k).contains made untainted declared run run' found
  · intro chain made
    rw [registered] at made
    exact solve_returns_both registered made (.limited (kind.spec (k + 1))) (.limited (kind.spec k))

/-- Two elements of context tell the drawers apart, one does not. -/
theorem Analysis.drawers_cut : ∃ r s, drawerAnalysis (.limited (ContextKind.object.spec 2)) = .ok r ∧
    drawerAnalysis (.limited (ContextKind.object.spec 1)) = .ok s ∧ (r.pointsTo 8).length = 1 ∧
    (s.pointsTo 8).length = 2 ∧
    ∀ x, r.facts.Found x → s.facts.Found (x.reframe (Frame.recent 1) (Frame.recent 0)) := by
  obtain ⟨r, solved, one⟩ := count?_eq_some (show count?
    (drawerAnalysis (.limited (ContextKind.object.spec 2))) 8 = some 1 by decide +kernel)
  obtain ⟨s, solved', two⟩ := count?_eq_some (show count?
    (drawerAnalysis (.limited (ContextKind.object.spec 1))) 8 = some 2 by decide +kernel)
  exact ⟨r, s, solved, solved', one, two,
    ((Analysis.longer_contexts_refine rfl rfl (by decide) .object 1).1 r s solved solved').2⟩

end PointsTo
