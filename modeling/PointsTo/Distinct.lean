/-!
Lists read as sets in order of first occurrence, and the order of lists of numbers.
-/
namespace PointsTo

/-- Appends the items that are not there yet. -/
def appendNew [DecidableEq α] (into : List α) : List α → List α
  | [] => into
  | a :: rest => appendNew (if a ∈ into then into else into ++ [a]) rest

def closeUnder [DecidableEq α] (next : α → List α) : Nat → List α → List α
  | 0, seen => seen
  | n + 1, seen => closeUnder next n (appendNew seen (seen.flatMap next))

/-- Compares lists of numbers place by place; a list comes before its continuations. -/
def lexLe : List Nat → List Nat → Bool
  | [], _ => true
  | _ :: _, [] => false
  | a :: as, b :: bs => if a = b then lexLe as bs else a < b

/-- The items in order of their keys; items of one key keep their order. -/
def sortedBy (key : α → List Nat) (items : List α) : List α :=
  items.mergeSort fun a b => lexLe (key a) (key b)

def ascending (items : List Nat) : List Nat := (items.mergeSort (· ≤ ·)).eraseDups

end PointsTo
