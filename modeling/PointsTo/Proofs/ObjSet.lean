import PointsTo.ObjSet

/-!
Sets of object handles by their members. A bitmap and a list that hold the same numbers are the same
set, and every operation is described by what it does to membership.
-/
namespace PointsTo

namespace Bitmap

variable {m : Bitmap} {x y : Nat} {xs : List Nat}

theorem mem_toList : x ∈ m.toList ↔ m.contains x = true := Words.mem_members

theorem mem_add : y ∈ (m.add x).1.toList ↔ y = x ∨ y ∈ m.toList := by
  unfold add
  split
  · next held =>
    refine ⟨Or.inr, ?_⟩
    rintro (rfl | member)
    · exact mem_toList.mpr held
    · exact member
  · exact mem_toList.trans (Words.has_put.trans (or_congr_right mem_toList.symm))

theorem add_new : (m.add x).2 = true ↔ x ∉ m.toList := by
  rw [mem_toList, contains]
  unfold add
  split
  · next held => simp [held]
  · next fresh => simp [fresh]

theorem mem_addNew {apart : xs.Pairwise (· < ·)} {fresh : ∀ x ∈ xs, m.words.has x = false} :
    y ∈ (m.addNew xs apart fresh).toList ↔ y ∈ m.toList ∨ y ∈ xs :=
  mem_toList.trans ((Words.has_foldl_put xs m.words y).trans (or_comm.trans (or_congr_left mem_toList.symm)))

theorem mem_ofAscending {ascending : xs.Pairwise (· < ·)} : y ∈ (ofAscending xs ascending).toList ↔ y ∈ xs := by
  rw [mem_toList, contains, ofAscending, Words.has_markAll, Words.has_blank]
  simp

theorem mem_removeIf {drop : Nat → Bool} : x ∈ (m.removeIf drop).1.toList ↔ x ∈ m.toList ∧ drop x = false := by
  rw [mem_toList, mem_toList]
  change (m.words.sweep drop).1.has x = true ↔ m.words.has x = true ∧ _
  rw [Words.has_sweep, Bool.and_eq_true, Bool.not_eq_true']

end Bitmap

namespace ObjSet

variable {s other : ObjSet} {x : Nat}

instance : Membership Nat ObjSet := ⟨fun s x => x ∈ s.toList⟩

theorem contains_iff : s.contains x = true ↔ x ∈ s := by
  cases s with
  | sparse elems ascending => exact List.contains_iff_mem
  | dense map => exact Bitmap.mem_toList.symm

theorem length_toList (s : ObjSet) : s.toList.length = s.size := by
  cases s with
  | sparse elems ascending => rfl
  | dense map => exact map.counted.symm

theorem isEmpty_iff : s.isEmpty = true ↔ ∀ x, x ∉ s := by
  rw [isEmpty, beq_iff_eq, ← length_toList, List.length_eq_zero_iff]
  exact List.eq_nil_iff_forall_not_mem

theorem beq_iff {t : ObjSet} : (s == t) = true ↔ ∀ x, x ∈ s ↔ x ∈ t := by
  change (s.size == t.size && s.toList == t.toList) = true ↔ _
  rw [Bool.and_eq_true, beq_iff_eq, beq_iff_eq]
  constructor
  · rintro ⟨_, same⟩ x
    change x ∈ s.toList ↔ x ∈ t.toList
    rw [same]
  · intro same
    have equal := ascending_ext s.toList_ascending t.toList_ascending same
    exact ⟨by rw [← length_toList, ← length_toList, equal], equal⟩

@[simp] theorem not_mem_empty (x : Nat) : x ∉ empty := List.not_mem_nil

@[simp] theorem mem_singleton {y : Nat} : x ∈ singleton y ↔ x = y := List.mem_singleton

@[simp] theorem mem_removeIf {drop : Nat → Bool} : x ∈ (s.removeIf drop).1 ↔ x ∈ s ∧ drop x = false := by
  cases s with
  | sparse elems ascending =>
    change x ∈ elems.filter _ ↔ x ∈ elems ∧ _
    simp [List.mem_filter]
  | dense map => exact Bitmap.mem_removeIf

theorem removeIf_count (s : ObjSet) (drop : Nat → Bool) : (s.removeIf drop).2 = s.toList.countP drop := by
  cases s with
  | sparse elems ascending =>
    have parts := List.length_eq_countP_add_countP drop (l := elems)
    simp only [Bool.not_eq_true, Bool.decide_eq_false] at parts
    simp only [removeIf, toList, ← List.countP_eq_length_filter]
    omega
  | dense map => exact Words.sweep_count drop map.words

theorem mem_newIn : x ∈ s.newIn other ↔ x ∈ other ∧ x ∉ s := by
  rw [newIn, List.mem_filter, Bool.not_eq_true', ← Bool.not_eq_true, contains_iff]
  exact Iff.rfl

section
variable {crowded : List Nat → Bool} {x : Nat} {s other : ObjSet}

@[simp] theorem mem_ofAscendingBy {elems : List Nat} {ascending : elems.Pairwise (· < ·)} :
    x ∈ ofAscendingBy crowded elems ascending ↔ x ∈ elems := by
  unfold ofAscendingBy
  split
  · exact Bitmap.mem_ofAscending
  · exact Iff.rfl

@[simp] theorem mem_ofListBy {xs : List Nat} : x ∈ ofListBy crowded xs ↔ x ∈ xs := by
  rw [ofListBy, mem_ofAscendingBy]
  induction xs with
  | nil => rfl
  | cons y rest ih => rw [List.foldr_cons, mem_insertAscending, ih, List.mem_cons]

@[simp] theorem mem_addBy {y : Nat} : y ∈ (addBy crowded s x).1 ↔ y = x ∨ y ∈ s := by
  cases s with
  | sparse elems ascending =>
    dsimp only [addBy]
    split
    · next held =>
      refine ⟨Or.inr, ?_⟩
      rintro (rfl | member)
      · exact List.contains_iff_mem.mp held
      · exact member
    · exact mem_ofAscendingBy.trans mem_insertAscending
  | dense map => exact Bitmap.mem_add

theorem addBy_new : (addBy crowded s x).2 = true ↔ x ∉ s := by
  cases s with
  | sparse elems ascending =>
    rw [← contains_iff]
    change _ ↔ ¬ elems.contains x = true
    dsimp only [addBy]
    split
    · next held => exact ⟨fun no => absurd no Bool.false_ne_true, fun fresh => absurd held fresh⟩
    · next fresh => exact ⟨fun _ => fresh, fun _ => rfl⟩
  | dense map => exact Bitmap.add_new

@[simp] theorem mem_unionBy_snd : x ∈ (unionBy crowded s other).2 ↔ x ∈ other ∧ x ∉ s := by
  rw [← mem_newIn]
  unfold unionBy
  dsimp only
  split
  · next none => simp [List.isEmpty_iff.mp none]
  · cases s <;> exact Iff.rfl

@[simp] theorem mem_unionBy_fst : x ∈ (unionBy crowded s other).1 ↔ x ∈ s ∨ x ∈ other := by
  have gained : x ∈ s ∨ x ∈ other ↔ x ∈ s ∨ x ∈ s.newIn other := by
    rw [mem_newIn]
    by_cases held : x ∈ s <;> simp [held]
  rw [gained]
  unfold unionBy
  dsimp only
  split
  · next none => simp [List.isEmpty_iff.mp none]
  · cases s with
    | sparse elems ascending =>
      exact mem_ofAscendingBy.trans (mem_mergeAscending (List.Pairwise.filter _ other.toList_ascending))
    | dense map => exact Bitmap.mem_addNew

end

@[simp] theorem mem_ofList {xs : List Nat} : x ∈ ofList xs ↔ x ∈ xs := mem_ofListBy

@[simp] theorem mem_filter {keep : Nat → Bool} : x ∈ s.filter keep ↔ x ∈ s ∧ keep x = true := by
  rw [filter, mem_ofAscendingBy, List.mem_filter]
  exact Iff.rfl

@[simp] theorem mem_union_snd : x ∈ (s.union other).2 ↔ x ∈ other ∧ x ∉ s :=
  mem_unionBy_snd

@[simp] theorem mem_union_fst : x ∈ (s.union other).1 ↔ x ∈ s ∨ x ∈ other :=
  mem_unionBy_fst

end ObjSet

end PointsTo
