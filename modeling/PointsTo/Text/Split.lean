/-!
Cutting a text at a mark: at the first or at every occurrence of a character, or before a suffix.
-/
namespace PointsTo.Text

/-- The parts before and after the first `mark`; none if `mark` does not occur. -/
def splitFirst? (mark : Char) : List Char → Option (List Char × List Char)
  | [] => none
  | c :: rest =>
    if c = mark then some ([], rest)
    else (splitFirst? mark rest).map fun (before, after) => (c :: before, after)

/-- The parts between the occurrences of `mark`. -/
def splitChars (mark : Char) : List Char → List (List Char)
  | [] => [[]]
  | c :: rest =>
    if c = mark then [] :: splitChars mark rest
    else
      match splitChars mark rest with
      | [] => [[c]]
      | part :: others => (c :: part) :: others

def split (mark : Char) (s : String) : List String := (splitChars mark s.toList).map String.ofList

/-- What stands before `suffix` in a text that ends with it. -/
def dropSuffix? (suffix cs : List Char) : Option (List Char) :=
  if suffix.isSuffixOf cs then some (cs.take (cs.length - suffix.length)) else none

/-- The texts one after another with `mark` between neighbours. -/
def join (mark : String) : List String → String
  | [] => ""
  | [s] => s
  | s :: rest => s ++ mark ++ join mark rest

end PointsTo.Text
