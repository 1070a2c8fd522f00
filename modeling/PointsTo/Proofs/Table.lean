import PointsTo.Context.Table

/-!
Tables only grow. One table lies below another when it gives every position the same item; interning
leads upwards, an item has one position, and interning a known item changes nothing.
-/
namespace PointsTo

namespace Table

variable {α : Type u} [DecidableEq α] {t : Table α} {a b : α} {i : Nat}

instance : LE (Table α) := ⟨fun t u => ∀ i a, t.get? i = some a → u.get? i = some a⟩

theorem le_refl (t : Table α) : t ≤ t := fun _ _ known => known

theorem le_trans {u v : Table α} (first : t ≤ u) (second : u ≤ v) : t ≤ v :=
  fun i a known => second i a (first i a known)

theorem le_intern (t : Table α) (a : α) : t ≤ (t.intern a).1 :=
  fun _ _ known => get?_intern_of_some known

theorem le_internAll (t : Table α) (items : List α) : t ≤ t.internAll items := by
  refine List.foldlRecOn (motive := fun u => t ≤ u) items _ (le_refl t) fun u above a _ => ?_
  exact le_trans above (le_intern u a)

theorem get?_inj {j : Nat} (first : t.get? i = some a) (second : t.get? j = some a) : i = j := by
  have found := find?_eq_some_iff.mpr first
  rw [find?_eq_some_iff.mpr second] at found
  exact (Option.some.inj found).symm

theorem intern_of_known (known : t.get? i = some a) : t.intern a = (t, i) := by
  have found := find?_eq_some_iff.mpr known
  unfold intern
  split
  · next j located =>
    rw [found] at located
    rw [Option.some.inj located]
  · next absent =>
    rw [found] at absent
    cases absent

theorem get?_intern_inv (found : (t.intern a).1.get? i = some b) :
    t.get? i = some b ∨ (b = a ∧ i = (t.intern a).2) := by
  by_cases same : b = a
  · subst same
    exact Or.inr ⟨rfl, get?_inj found (get?_intern_self t b)⟩
  · left
    unfold intern at found
    split at found
    · exact found
    · simp only [get?, push, Array.getElem?_push] at found
      split at found
      · exact absurd (Option.some.inj found).symm same
      · exact found

theorem get?_internAll_inv {items : List α} (found : (t.internAll items).get? i = some b) :
    t.get? i = some b ∨ b ∈ items := by
  induction items generalizing t with
  | nil => exact Or.inl found
  | cons a rest ih =>
    rcases ih found with first | later
    · rcases get?_intern_inv first with old | ⟨rfl, _⟩
      · exact Or.inl old
      · exact Or.inr List.mem_cons_self
    · exact Or.inr (List.mem_cons_of_mem _ later)

end Table

namespace ContextTable

/-- An operation on a table: what stood there still does, and what stands there now did before or is the
answer. -/
structure Yields (t : ContextTable) (r : ContextTable × ContextId) : Prop where
  above : t.entries ≤ r.1.entries
  adds : ∀ i elems, r.1.entries.get? i = some elems → t.entries.get? i = some elems ∨ i = r.2

theorem yields_self (t : ContextTable) (c : ContextId) : t.Yields (t, c) :=
  ⟨Table.le_refl _, fun _ _ found => Or.inl found⟩

theorem yields_intern (t : ContextTable) (c : Context) : t.Yields (t.intern c) := by
  refine ⟨Table.le_intern _ _, fun i elems found => ?_⟩
  rcases Table.get?_intern_inv found with old | ⟨_, new⟩
  · exact Or.inl old
  · exact Or.inr new

theorem yields_append (t : ContextTable) (c : ContextId) (e : ContextElem) (limit : Nat) :
    t.Yields (t.append c e limit) := by
  unfold append
  split
  · exact yields_self t _
  · exact yields_intern t _

theorem yields_truncate (t : ContextTable) (c : ContextId) (limit : Nat) :
    t.Yields (t.truncate c limit) := by
  unfold truncate
  split
  · exact yields_self t _
  · exact yields_intern t _

end ContextTable

end PointsTo
