/-!
Unsigned decimal numerals below a bound. One leading plus sign is allowed; the digits are the ten
ASCII digits, and there is at least one of them.
-/
namespace PointsTo.Text

def digit? (c : Char) : Option Nat :=
  if '0' ≤ c ∧ c ≤ '9' then some (c.toNat - '0'.toNat) else none

/-- The number that the digits `cs` continue from `start`. -/
def digits? (start : Nat) : List Char → Option Nat
  | [] => some start
  | c :: rest =>
    match digit? c with
    | some d => digits? (10 * start + d) rest
    | none => none

def numeral? : List Char → Option Nat
  | [] => none
  | cs => digits? 0 cs

def unsigned? (bound : Nat) (cs : List Char) : Option Nat :=
  let body := match cs with
    | '+' :: rest => rest
    | _ => cs
  match numeral? body with
  | some n => if n < bound then some n else none
  | none => none

/-- One more than the largest number of a 64-bit word. -/
def wordBound : Nat := 1 <<< 64

end PointsTo.Text
