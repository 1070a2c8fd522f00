import PointsTo.Bitmap

/-!
Sets of object handles. A set is an ascending list; once it is large and dense it becomes a bitmap,
and a bitmap never turns back. Membership, size and iteration order do not show the difference. The
test that says when a list is crowded enough for a bitmap is a parameter of every operation that
makes a list longer; `fills` is the test in use.
-/
namespace PointsTo

inductive ObjSet
  | sparse (elems : List Nat) (ascending : elems.Pairwise (· < ·))
  | dense (map : Bitmap)

namespace ObjSet

def denseSize : Nat := 64

/-- A set is dense when its members fill more than one tenth of the numbers up to the last. -/
def fills (elems : List Nat) : Bool :=
  match elems.getLast? with
  | some last => denseSize ≤ elems.length && last + 1 < 10 * elems.length
  | none => false

def empty : ObjSet := sparse [] List.Pairwise.nil

instance : Inhabited ObjSet := ⟨empty⟩

def singleton (x : Nat) : ObjSet := sparse [x] (by simp)

def toList : ObjSet → List Nat
  | sparse elems _ => elems
  | dense map => map.toList

def contains : ObjSet → Nat → Bool
  | sparse elems _, x => elems.contains x
  | dense map, x => map.contains x

def size : ObjSet → Nat
  | sparse elems _ => elems.length
  | dense map => map.count

def isEmpty (s : ObjSet) : Bool := s.size == 0

def isDense : ObjSet → Bool
  | sparse _ _ => false
  | dense _ => true

theorem toList_ascending (s : ObjSet) : s.toList.Pairwise (· < ·) := by
  cases s with
  | sparse elems ascending => exact ascending
  | dense map => exact map.toList_ascending

/-- The members of `other` that `s` lacks. -/
def newIn (s other : ObjSet) : List Nat := other.toList.filter fun x => !s.contains x

/-- The set without the members that `drop` names, and how many these are; a bitmap stays a bitmap. -/
def removeIf (s : ObjSet) (drop : Nat → Bool) : ObjSet × Nat :=
  match s with
  | sparse elems ascending =>
    (sparse (elems.filter fun x => !drop x) (List.Pairwise.filter _ ascending),
      elems.length - (elems.filter fun x => !drop x).length)
  | dense map => (dense (map.removeIf drop).1, (map.removeIf drop).2)

instance : BEq ObjSet := ⟨fun s t => s.size == t.size && s.toList == t.toList⟩

def dump (s : ObjSet) : String :=
  "\x7b" ++ Text.join ", " (s.toList.map toString) ++ "\x7d"

section
variable (crowded : List Nat → Bool)

/-- The set of an ascending list, in the form that suits it. -/
def ofAscendingBy (elems : List Nat) (ascending : elems.Pairwise (· < ·)) : ObjSet :=
  if crowded elems then dense (Bitmap.ofAscending elems ascending) else sparse elems ascending

def ofListBy (xs : List Nat) : ObjSet :=
  ofAscendingBy crowded (xs.foldr insertAscending []) (foldr_insertAscending_ascending xs)

/-- The set with `x` in it; the answer says whether `x` is new. -/
def addBy : ObjSet → Nat → ObjSet × Bool
  | sparse elems ascending, x =>
    if elems.contains x then (sparse elems ascending, false)
    else (ofAscendingBy crowded (insertAscending x elems) (insertAscending_ascending ascending), true)
  | dense map, x => (dense (map.add x).1, (map.add x).2)

/-- The set with all members of `other`, and the set of those that are new. -/
def unionBy (s other : ObjSet) : ObjSet × ObjSet :=
  have rising : (s.newIn other).Pairwise (· < ·) := List.Pairwise.filter _ other.toList_ascending
  if (s.newIn other).isEmpty then (s, empty)
  else match s, rising with
    | sparse elems ascending, rising =>
      (ofAscendingBy crowded (mergeAscending elems (newIn (sparse elems ascending) other))
        (mergeAscending_ascending ascending rising), sparse _ rising)
    | dense map, rising =>
      (dense (map.addNew (newIn (dense map) other) rising fun x member => by
        simpa [contains, Bitmap.contains] using (List.mem_filter.mp member).2), sparse _ rising)

end

def ofList : List Nat → ObjSet := ofListBy fills

def add : ObjSet → Nat → ObjSet × Bool := addBy fills

def union : ObjSet → ObjSet → ObjSet × ObjSet := unionBy fills

/-- The set of the members that `keep` keeps, as a filter of the list form. -/
def filter (s : ObjSet) (keep : Nat → Bool) : ObjSet :=
  ofAscendingBy fills (s.toList.filter keep) (List.Pairwise.filter _ s.toList_ascending)

end ObjSet

end PointsTo
