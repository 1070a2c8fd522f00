import PointsTo.Proofs.Hierarchy

/-!
Subtyping as an order. Arrays are covariant without exception, for the test on their elements refuses
nothing that subtyping of the elements allows; so each law goes by induction on the array marks of a
type, down to the hierarchy.
-/
namespace PointsTo.Program

variable {p : Program} {a b c : ClassId} {s t u : Ty}

theorem isSubclass_refl (p : Program) (c : ClassId) : p.isSubclass c c = true := by
  simp [isSubclass, leadsTo?]

theorem isSubtype_null (p : Program) (t : Ty) : p.isSubtype .null t = t.isReference := rfl

theorem isSubtype_arrays (p : Program) (s t : Ty) : p.isSubtype (.array s) (.array t) =
    if s.isReference && t.isReference then p.isSubtype s t else s == t := rfl

theorem isSubtype_plain (plain : s.isReference = false) : p.isSubtype s t = true ↔ s = t := by
  cases s with
  | prim q | void => cases t <;> exact beq_iff_eq
  | cls c => cases plain
  | array e => cases plain
  | null => cases plain

theorem isSubtype_cls : p.isSubtype (.cls a) t = true ↔ ∃ b, t = .cls b ∧ p.isSubclass a b = true := by
  constructor
  · intro below
    cases t <;> first | exact ⟨_, rfl, below⟩ | cases below
  · rintro ⟨b, rfl, below⟩
    exact below

theorem isSubtype_refl (p : Program) (t : Ty) : p.isSubtype t t = true := by
  induction t with
  | prim q | void => exact (isSubtype_plain rfl).mpr rfl
  | cls c => exact p.isSubclass_refl c
  | array e ih =>
    rw [isSubtype_arrays]
    split
    · exact ih
    · exact beq_self_eq_true e
  | null => rfl

theorem isReference_of_isSubtype (below : p.isSubtype s t = true) : s.isReference = t.isReference := by
  cases s with
  | prim q | void => rw [(isSubtype_plain rfl).mp below]
  | cls a =>
    obtain ⟨b, rfl, _⟩ := isSubtype_cls.mp below
    rfl
  | array e => cases t <;> first | rfl | cases below
  | null => exact below.symm

theorem isSubtype_array : p.isSubtype (.array s) (.array t) = true ↔ p.isSubtype s t = true := by
  rw [isSubtype_arrays]
  split
  · exact Iff.rfl
  · next plain =>
    rw [beq_iff_eq]
    constructor
    · rintro rfl
      exact p.isSubtype_refl s
    · intro below
      have same := isReference_of_isSubtype below
      cases reference : s.isReference with
      | true => simp [reference, ← same] at plain
      | false => exact (isSubtype_plain reference).mp below

/-- Above an array stand the arrays of what stands above its elements, and the supertypes of all arrays. -/
theorem isSubtype_of_array : p.isSubtype (.array s) t = true ↔
    (∃ b, t = .cls b ∧ isArraySupertype (p.className b) = true) ∨ ∃ e, t = .array e ∧ p.isSubtype s e = true := by
  constructor
  · intro below
    cases t with
    | cls b => exact .inl ⟨b, rfl, below⟩
    | array e => exact .inr ⟨e, rfl, isSubtype_array.mp below⟩
    | prim q => cases below
    | null => cases below
    | void => cases below
  · rintro (⟨b, rfl, named⟩ | ⟨e, rfl, below⟩)
    · exact named
    · exact isSubtype_array.mpr below

/-- Above a supertype of all arrays there are only such. -/
def ArraysStay (p : Program) : Prop := ∀ c d, p.Inherits c d →
  isArraySupertype (p.className c) = true → isArraySupertype (p.className d) = true

theorem ArraysStay.of_below (stay : p.ArraysStay) (below : p.Below a b)
    (named : isArraySupertype (p.className a) = true) : isArraySupertype (p.className b) = true := by
  induction below with
  | refl => exact named
  | tail _ step ih => exact stay _ _ step ih

theorem isSubtype_trans (acyclic : p.Acyclic) (stay : p.ArraysStay) (lower : p.isSubtype s t = true)
    (upper : p.isSubtype t u = true) : p.isSubtype s u = true := by
  induction s generalizing t u with
  | prim q | void =>
    obtain rfl := (isSubtype_plain rfl).mp lower
    exact upper
  | null =>
    rw [isSubtype_null] at lower ⊢
    rw [← isReference_of_isSubtype upper]
    exact lower
  | cls a =>
    obtain ⟨b, rfl, first⟩ := isSubtype_cls.mp lower
    obtain ⟨c, rfl, second⟩ := isSubtype_cls.mp upper
    exact acyclic.isSubclass_iff.mpr
      ((acyclic.isSubclass_iff.mp first).trans (acyclic.isSubclass_iff.mp second))
  | array s ih =>
    rcases isSubtype_of_array.mp lower with ⟨b, rfl, named⟩ | ⟨e, rfl, elements⟩
    -- from a supertype of all arrays the way goes on along the hierarchy
    · obtain ⟨c, rfl, above⟩ := isSubtype_cls.mp upper
      exact isSubtype_of_array.mpr (.inl ⟨c, rfl, stay.of_below (acyclic.isSubclass_iff.mp above) named⟩)
    · rcases isSubtype_of_array.mp upper with ⟨c, rfl, named⟩ | ⟨g, rfl, above⟩
      · exact isSubtype_of_array.mpr (.inl ⟨c, rfl, named⟩)
      · exact isSubtype_array.mpr (ih elements above)

theorem Acyclic.below_antisymm (acyclic : p.Acyclic) (up : p.Below a b) (down : p.Below b a) : a = b := by
  rcases Relation.reflTransGen_iff_eq_or_transGen.mp up with same | strict
  · exact same.symm
  · exact absurd down (acyclic.not_below strict)

theorem isSubtype_antisymm (acyclic : p.Acyclic) (up : p.isSubtype s t = true)
    (down : p.isSubtype t s = true) : s = t := by
  induction s generalizing t with
  | prim q | void => exact (isSubtype_plain rfl).mp up
  | null => cases t <;> first | rfl | cases down
  | cls a =>
    obtain ⟨b, rfl, above⟩ := isSubtype_cls.mp up
    have back := acyclic.isSubclass_iff.mp down
    rw [acyclic.below_antisymm (acyclic.isSubclass_iff.mp above) back]
  | array s ih =>
    rcases isSubtype_of_array.mp up with ⟨b, rfl, _⟩ | ⟨e, rfl, elements⟩
    · cases down
    · rw [ih elements (isSubtype_array.mp down)]

/-- Subtyping is a partial order of all types, if the hierarchy has no cycle and only supertypes of all
arrays stand above supertypes of all arrays. -/
theorem subtyping_partial_order (acyclic : p.Acyclic) (stay : p.ArraysStay) :
    (∀ t, p.isSubtype t t = true) ∧
    (∀ s t u, p.isSubtype s t = true → p.isSubtype t u = true → p.isSubtype s u = true) ∧
    (∀ s t, p.isSubtype s t = true → p.isSubtype t s = true → s = t) :=
  ⟨p.isSubtype_refl, fun _ _ _ => isSubtype_trans acyclic stay, fun _ _ => isSubtype_antisymm acyclic⟩

theorem harbour_arraysStay : harbour.ArraysStay := by
  intro c d step named
  have each : ∀ c < 5, ∀ d ∈ harbour.directSupertypes c, isArraySupertype (harbour.className c) = true →
      isArraySupertype (harbour.className d) = true := by decide
  exact each c step.lt d step named

/-- Rows of boats are rows of floating things, which are objects like all arrays. -/
theorem harbour_ordered : harbour.Acyclic ∧ harbour.ArraysStay ∧
    harbour.isSubtype (.array (.array (.cls 4))) (.array (.array (.cls 2))) = true ∧
    harbour.isSubtype (.array (.array (.cls 2))) (.array (.cls 0)) = true ∧
    harbour.isSubtype (.array (.array (.cls 4))) (.array (.cls 0)) = true := by
  have lower : harbour.isSubtype (.array (.array (.cls 4))) (.array (.array (.cls 2))) = true := by decide
  have upper : harbour.isSubtype (.array (.array (.cls 2))) (.array (.cls 0)) = true := by decide
  have ordered := subtyping_partial_order harbour_acyclic harbour_arraysStay
  exact ⟨harbour_acyclic, harbour_arraysStay, lower, upper, ordered.2.1 _ _ _ lower upper⟩

end PointsTo.Program
