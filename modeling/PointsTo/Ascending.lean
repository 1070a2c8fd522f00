import PointsTo.Text.Split

/-!
Ascending lists of numbers, without repetitions. Such a list is determined by its members.
-/
namespace PointsTo

def insertAscending (x : Nat) : List Nat → List Nat
  | [] => [x]
  | y :: rest =>
    if x < y then x :: y :: rest
    else if x = y then y :: rest
    else y :: insertAscending x rest

def mergeAscending : List Nat → List Nat → List Nat
  | [], ys => ys
  | x :: rest, ys => ys.takeWhile (· < x) ++ x :: mergeAscending rest (ys.dropWhile (· ≤ x))

theorem mem_insertAscending {a x : Nat} {xs : List Nat} :
    a ∈ insertAscending x xs ↔ a = x ∨ a ∈ xs := by
  induction xs with
  | nil => simp [insertAscending]
  | cons y rest ih =>
    unfold insertAscending
    split
    · simp
    · split
      · next equal => subst equal; simp
      · simp only [List.mem_cons, ih]; exact or_left_comm

theorem insertAscending_ascending {x : Nat} {xs : List Nat} (h : xs.Pairwise (· < ·)) :
    (insertAscending x xs).Pairwise (· < ·) := by
  induction xs with
  | nil => simp [insertAscending]
  | cons y rest ih =>
    unfold insertAscending
    split
    · next below =>
      refine List.pairwise_cons.mpr ⟨fun a member => ?_, h⟩
      rcases List.mem_cons.mp member with same | later
      · omega
      · have := (List.pairwise_cons.mp h).1 a later; omega
    · split
      · exact h
      · refine List.pairwise_cons.mpr ⟨fun a member => ?_, ih (List.pairwise_cons.mp h).2⟩
        rcases mem_insertAscending.mp member with same | later
        · omega
        · exact (List.pairwise_cons.mp h).1 a later

theorem foldr_insertAscending_ascending (xs : List Nat) :
    (xs.foldr insertAscending []).Pairwise (· < ·) := by
  induction xs with
  | nil => exact List.Pairwise.nil
  | cons x rest ih => exact insertAscending_ascending ih

theorem mem_dropWhile_ascending {a x : Nat} {ys : List Nat} (h : ys.Pairwise (· < ·)) :
    a ∈ ys.dropWhile (· ≤ x) ↔ a ∈ ys ∧ x < a := by
  induction ys with
  | nil => simp
  | cons y rest ih =>
    obtain ⟨first, tail⟩ := List.pairwise_cons.mp h
    by_cases below : y ≤ x
    · rw [List.dropWhile_cons_of_pos (by simpa using below), ih tail, List.mem_cons]
      constructor
      · exact fun ⟨later, above⟩ => ⟨Or.inr later, above⟩
      · rintro ⟨same | later, above⟩
        · omega
        · exact ⟨later, above⟩
    · rw [List.dropWhile_cons_of_neg (by simpa using below)]
      refine ⟨fun member => ⟨member, ?_⟩, And.left⟩
      rcases List.mem_cons.mp member with same | later
      · omega
      · have := first a later; omega

theorem mem_takeWhile_ascending {a x : Nat} {ys : List Nat} (h : ys.Pairwise (· < ·)) :
    a ∈ ys.takeWhile (· < x) ↔ a ∈ ys ∧ a < x := by
  induction ys with
  | nil => simp
  | cons y rest ih =>
    obtain ⟨first, tail⟩ := List.pairwise_cons.mp h
    by_cases below : y < x
    · rw [List.takeWhile_cons_of_pos (by simpa using below), List.mem_cons, ih tail, List.mem_cons]
      constructor
      · rintro (rfl | ⟨later, small⟩)
        · exact ⟨Or.inl rfl, below⟩
        · exact ⟨Or.inr later, small⟩
      · exact fun ⟨member, small⟩ => member.imp_right fun later => ⟨later, small⟩
    · rw [List.takeWhile_cons_of_neg (by simpa using below)]
      refine ⟨fun member => absurd member List.not_mem_nil, fun ⟨member, small⟩ => ?_⟩
      rcases List.mem_cons.mp member with same | later
      · omega
      · have := first a later; omega

theorem mem_mergeAscending {a : Nat} {xs ys : List Nat} (h : ys.Pairwise (· < ·)) :
    a ∈ mergeAscending xs ys ↔ a ∈ xs ∨ a ∈ ys := by
  induction xs generalizing ys with
  | nil => simp [mergeAscending]
  | cons x rest ih =>
    have left := h.sublist (List.dropWhile_sublist (p := (· ≤ x)))
    rw [mergeAscending, List.mem_append, List.mem_cons, ih left, mem_takeWhile_ascending h,
      mem_dropWhile_ascending h, List.mem_cons]
    rcases Nat.lt_trichotomy a x with below | same | above
    · simp [below, Nat.ne_of_lt below, Nat.lt_asymm below, or_comm]
    · simp [same]
    · simp [above, Nat.ne_of_gt above, Nat.lt_asymm above]

theorem mergeAscending_ascending {xs ys : List Nat} (hx : xs.Pairwise (· < ·))
    (hy : ys.Pairwise (· < ·)) : (mergeAscending xs ys).Pairwise (· < ·) := by
  induction xs generalizing ys with
  | nil => exact hy
  | cons x rest ih =>
    obtain ⟨first, tail⟩ := List.pairwise_cons.mp hx
    have left := hy.sublist (List.dropWhile_sublist (p := (· ≤ x)))
    have above : ∀ a ∈ mergeAscending rest (ys.dropWhile (· ≤ x)), x < a := by
      intro a member
      rcases (mem_mergeAscending left).mp member with later | larger
      · exact first a later
      · exact ((mem_dropWhile_ascending hy).mp larger).2
    refine List.pairwise_append.mpr ⟨hy.sublist (List.takeWhile_sublist _), ?_, ?_⟩
    · exact List.pairwise_cons.mpr ⟨above, ih tail left⟩
    · intro a small b member
      have := ((mem_takeWhile_ascending hy).mp small).2
      rcases List.mem_cons.mp member with same | later
      · omega
      · have := above b later; omega

theorem ascending_ext {xs ys : List Nat} (hx : xs.Pairwise (· < ·)) (hy : ys.Pairwise (· < ·))
    (same : ∀ a, a ∈ xs ↔ a ∈ ys) : xs = ys := by
  induction xs generalizing ys with
  | nil =>
    cases ys with
    | nil => rfl
    | cons y rest => exact absurd ((same y).mpr List.mem_cons_self) List.not_mem_nil
  | cons x xs ih =>
    cases ys with
    | nil => exact absurd ((same x).mp List.mem_cons_self) List.not_mem_nil
    | cons y ys =>
      obtain ⟨belowX, restX⟩ := List.pairwise_cons.mp hx
      obtain ⟨belowY, restY⟩ := List.pairwise_cons.mp hy
      -- each head is the least member of its list
      have heads : x = y := by
        have left := (same x).mp List.mem_cons_self
        have right := (same y).mpr List.mem_cons_self
        rcases List.mem_cons.mp left with equal | later
        · exact equal
        · rcases List.mem_cons.mp right with equal | later'
          · exact equal.symm
          · have := belowY x later
            have := belowX y later'
            omega
      subst heads
      refine congrArg _ (ih restX restY fun a => ⟨fun member => ?_, fun member => ?_⟩)
      · rcases List.mem_cons.mp ((same a).mp (List.mem_cons_of_mem _ member)) with equal | later
        · have := belowX a member
          omega
        · exact later
      · rcases List.mem_cons.mp ((same a).mpr (List.mem_cons_of_mem _ member)) with equal | later
        · have := belowY a member
          omega
        · exact later

theorem length_insertAscending {x : Nat} {xs : List Nat} (fresh : x ∉ xs) :
    (insertAscending x xs).length = xs.length + 1 := by
  induction xs with
  | nil => rfl
  | cons y rest ih =>
    unfold insertAscending
    split
    · rfl
    · split
      · next equal => exact absurd (equal ▸ List.mem_cons_self) fresh
      · rw [List.length_cons, List.length_cons, ih fun member => fresh (List.mem_cons_of_mem _ member)]

theorem le_getLast_of_ascending {xs : List Nat} {a last : Nat} (h : xs.Pairwise (· < ·))
    (ends : xs.getLast? = some last) (member : a ∈ xs) : a ≤ last := by
  obtain ⟨before, rfl⟩ := List.getLast?_eq_some_iff.mp ends
  rcases List.mem_append.mp member with earlier | here
  · exact Nat.le_of_lt ((List.pairwise_append.mp h).2.2 a earlier last (List.mem_singleton_self _))
  · exact Nat.le_of_eq (List.mem_singleton.mp here)

end PointsTo
