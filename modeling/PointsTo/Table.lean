import PointsTo.Dict

/-!
Interning tables. A table is a list of distinct items with an index that gives the position of each; an
item is known by its position. Interning finds the item or puts it at the end, so positions already given
out keep their meaning.
-/
namespace PointsTo

structure Table (α : Type u) [DecidableEq α] where
  items : Array α
  index : Dict α Nat
  indexed : index.Indexes items id

namespace Table

variable {α : Type u} [DecidableEq α]

def empty : Table α := ⟨#[], {}, Dict.Indexes.empty⟩

instance : Inhabited (Table α) := ⟨empty⟩

def size (t : Table α) : Nat := t.items.size

def get? (t : Table α) (i : Nat) : Option α := t.items[i]?

def find? (t : Table α) (a : α) : Option Nat := t.index.get? a

theorem find?_eq_some_iff {t : Table α} {a : α} {i : Nat} :
    t.find? a = some i ↔ t.get? i = some a := by
  simpa [find?, get?] using t.indexed a i

theorem distinct (t : Table α) : t.items.toList.Nodup := by
  refine List.pairwise_iff_getElem.mpr fun i j first second before same => ?_
  have found : t.find? t.items[i] = some i := find?_eq_some_iff.mpr (Array.getElem?_eq_getElem first)
  have again : t.find? t.items[j] = some j := find?_eq_some_iff.mpr (Array.getElem?_eq_getElem second)
  rw [← Array.getElem_toList, ← same, Array.getElem_toList, found] at again
  exact Nat.ne_of_lt before (Option.some.inj again)

def push (t : Table α) (a : α) (fresh : t.find? a = none) : Table α :=
  ⟨t.items.push a, t.index.insert a t.size, t.indexed.push fresh⟩

theorem size_push {t : Table α} {a : α} {fresh : t.find? a = none} :
    (t.push a fresh).size = t.size + 1 := by
  simp [push, size]

/-- The table with `a` in it, and the position of `a`. -/
def intern (t : Table α) (a : α) : Table α × Nat :=
  match h : t.find? a with
  | some i => (t, i)
  | none => (t.push a h, t.size)

def internAll (t : Table α) (as : List α) : Table α := as.foldl (fun t a => (t.intern a).1) t

theorem get?_intern_self (t : Table α) (a : α) : (t.intern a).1.get? (t.intern a).2 = some a := by
  unfold intern
  split
  · next i h => exact find?_eq_some_iff.mp h
  · simp [push, get?, size]

theorem get?_intern_of_some {t : Table α} {a b : α} {i : Nat} (known : t.get? i = some b) :
    (t.intern a).1.get? i = some b := by
  unfold intern
  split
  · exact known
  · have bound := (Array.getElem?_eq_some_iff.mp known).1
    simpa [push, get?, Array.getElem?_push, Nat.ne_of_lt bound] using known

end Table

end PointsTo
